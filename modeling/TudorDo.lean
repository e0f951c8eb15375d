import TudorDo.Do.CurrentWord
import TudorDo.Do.Exceptions
import TudorDo.Do.History
import TudorDo.Do.Match
import TudorDo.Do.PathCompletion
import TudorDo.Do.Session
import TudorDo.Do.Spawn
import TudorDo.Do.Suggestions
import TudorDo.Do.Tilde
import TudorDo.Inotify.Buffer
import TudorDo.Monitor.Duplicates
import TudorDo.Monitor.Interleaving
import TudorDo.Program
import TudorDo.System.Aliases
import TudorDo.System.Launch
import TudorDo.System.Objects
import TudorDo.System.Provenance
import TudorDo.System.Vanish
import TudorDo.Util.LastSpace
import TudorDo.Util.Replace
import TudorDo.XKeyBind.Hotkey
