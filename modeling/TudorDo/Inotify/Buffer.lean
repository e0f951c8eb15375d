import TudorDo.Inotify.Consistency
import TudorDo.Lib.Word

/-!
# The buffer of `WaitForEvents`

`read` fills `m_buf` with events in the layout of `struct inotify_event`: a header of four numbers,
the last the length of the name that follows, and the name with zeros behind it. As many whole events
are put in as there is room for, and the bytes behind them are those of earlier reads.

The loop of `WaitForEvents` goes from header to header. `receiveBytes_eq` says that it sees the events
that were put in, and nothing else; `reads_deliver_all` that reading again and again handles all that
was queued, wherever the reads cut it.
-/

namespace TudorDo.Objects

open Lib

/-! ## Layout -/

/-- `INOTIFY_EVENT_SIZE` -/
abbrev eventSize : Nat := 16

/-- `INOTIFY_BUFLEN` -/
abbrev bufLen : Nat := 1024 * (eventSize + 16)

/-- The length of the name field: room for a zero, and filled up to a multiple of the header's. -/
def nameLen (name : Bytes) : Nat := if name = [] then 0 else (name.length / eventSize + 1) * eventSize

/-- The bytes the kernel writes for an event. -/
def encode (evt : RawEvent) : Bytes :=
  toBytes 4 (evt.wd % 4294967296).toNat ++ toBytes 4 evt.mask.toNat ++ toBytes 4 evt.cookie.toNat ++
    toBytes 4 (nameLen evt.name) ++
    (evt.name ++ List.replicate (nameLen evt.name - evt.name.length) 0)

/-- What the kernel queues: a descriptor of 32 bits, and the name of a file. -/
structure WellFormed (evt : RawEvent) : Prop where
  wd : -1 ≤ evt.wd ∧ evt.wd < 2147483648
  name : 0 ∉ evt.name
  length : evt.name.length ≤ 255

theorem length_le_nameLen (name : Bytes) : name.length ≤ nameLen name := by
  unfold nameLen
  split_ifs with hname
  · simp [hname]
  · unfold eventSize
    omega

theorem length_lt_nameLen {name : Bytes} (hname : name ≠ []) : name.length < nameLen name := by
  rw [nameLen, if_neg hname]
  unfold eventSize
  omega

@[simp] theorem length_encode (evt : RawEvent) : (encode evt).length = eventSize + nameLen evt.name := by
  have := length_le_nameLen evt.name
  simp only [encode, List.length_append, length_toBytes, List.length_replicate]
  unfold eventSize
  omega

theorem length_encode_le {evt : RawEvent} (h : WellFormed evt) : (encode evt).length ≤ 272 := by
  have := h.length
  rw [length_encode, nameLen]
  unfold eventSize
  split_ifs <;> omega

/-! ## The loop -/

/-- The header of `struct inotify_event`. -/
structure Header where
  wd : Int
  mask : UInt32
  cookie : UInt32
  len : Nat

/-- The header at `&m_buf[i]`. -/
def header (buf : Bytes) (i : Nat) : Option Header :=
  (word buf i).bind fun wd =>
    (word buf (i + 4)).bind fun mask =>
      (word buf (i + 8)).bind fun cookie =>
        (word buf (i + 12)).map fun len =>
          ⟨Int.bmod wd 4294967296, .ofNat mask, .ofNat cookie, len⟩

/-- `pEvt->name`, which is read to its zero. -/
def name (buf : Bytes) (i : Nat) (h : Header) : Option Bytes :=
  if 0 < h.len then cString (buf.drop (i + eventSize)) else some []

namespace State

/-- One round of the loop of `Inotify::WaitForEvents`, at `&m_buf[i]`. -/
def receiveAt (s : State) (buf : Bytes) (i : Nat) (h : Header) : Option Outcome :=
  match s.watches[h.wd]? with
  | none => some (.ok (), s)
  | some _ => (name buf i h).bind fun name => s.receive ⟨h.wd, h.mask, h.cookie, name⟩

/-- The loop, over the first `len` bytes of `m_buf`. -/
def receiveBytes (s : State) (buf : Bytes) (len i : Nat) : Option Outcome :=
  if i < len then
    match header buf i with
    | none => none
    | some h =>
      (s.receiveAt buf i h).bind fun outcome =>
        match outcome with
        | (.ok _, s) => s.receiveBytes buf len (i + eventSize + h.len)
        | (.error e, s) => some (.error e, s)
  else some (.ok (), s)
termination_by len - i
decreasing_by
  unfold eventSize
  omega

end State

/-- How many of the queued events `read` finds room for. -/
def fitting : Nat → List RawEvent → Nat
  | _, [] => 0
  | room, evt :: queue =>
    if (encode evt).length ≤ room then fitting (room - (encode evt).length) queue + 1 else 0

namespace State

/-- `Inotify::WaitForEvents`, from `read` on; `buf` is what `m_buf` holds from earlier reads. -/
def waitForBytes (s : State) (buf : Bytes) : Option Outcome :=
  let count := fitting bufLen s.kernel.queue
  if s.fd = -1 then some (s.throwing "reading events failed" ebadf)
  else if s.kernel.queue ≠ [] ∧ count = 0 then some (s.throwing "reading events failed" einval)
  else
    let data := (s.kernel.queue.take count).flatMap encode
    receiveBytes { s with kernel := { s.kernel with queue := s.kernel.queue.drop count } }
      (data ++ buf.drop data.length) data.length 0

/-- One `WaitForEvents` after another. -/
def readEach (s : State) : List Bytes → Option Outcome
  | [] => some (.ok (), s)
  | buf :: bufs =>
    (s.waitForBytes buf).bind fun outcome =>
      match outcome with
      | (.ok _, s) => s.readEach bufs
      | (.error e, s) => some (.error e, s)

end State

/-! ## What the loop sees -/

variable {s s' : State}

theorem header_encode {evt : RawEvent} (h : WellFormed evt) {buf rest : Bytes} {i : Nat}
    (hbuf : buf.drop i = encode evt ++ rest) :
    header buf i = some ⟨evt.wd, evt.mask, evt.cookie, nameLen evt.name⟩ := by
  have hlen : nameLen evt.name < 4294967296 := by
    have := length_encode_le h
    rw [length_encode] at this
    omega
  have hwd := h.wd
  unfold encode at hbuf
  simp only [List.append_assoc] at hbuf
  have hbuf₁ := drop_add_of_drop hbuf
  have hbuf₂ := drop_add_of_drop hbuf₁
  have hbuf₃ := drop_add_of_drop hbuf₂
  simp only [length_toBytes, Nat.add_assoc] at hbuf₁ hbuf₂ hbuf₃
  rw [header, word_of_drop hbuf (by omega), Option.bind_some,
    word_of_drop hbuf₁ evt.mask.toNat_lt, Option.bind_some,
    word_of_drop hbuf₂ evt.cookie.toNat_lt, Option.bind_some, word_of_drop hbuf₃ hlen,
    Option.map_some]
  -- a descriptor is signed
  have hsigned : Int.bmod (evt.wd % 4294967296).toNat 4294967296 = evt.wd := by
    rw [Int.toNat_of_nonneg (by omega), Int.bmod_def]
    omega
  rw [hsigned, UInt32.ofNat_toNat, UInt32.ofNat_toNat]

theorem name_encode {evt : RawEvent} (h : WellFormed evt) {buf rest : Bytes} {i : Nat}
    (hbuf : buf.drop i = encode evt ++ rest) :
    name buf i ⟨evt.wd, evt.mask, evt.cookie, nameLen evt.name⟩ = some evt.name := by
  unfold name
  split_ifs with hpos
  · have hname : evt.name ≠ [] := by
      intro hname
      simp [nameLen, hname] at hpos
    -- there is room for a zero behind the name
    obtain ⟨n, hn⟩ : ∃ n, nameLen evt.name - evt.name.length = n + 1 := by
      have := length_lt_nameLen hname
      exact ⟨nameLen evt.name - evt.name.length - 1, by omega⟩
    have hfront : buf.drop i = (toBytes 4 (evt.wd % 4294967296).toNat ++ toBytes 4 evt.mask.toNat ++
        toBytes 4 evt.cookie.toNat ++ toBytes 4 (nameLen evt.name)) ++
          (evt.name ++ 0 :: (List.replicate n 0 ++ rest)) := by
      rw [hbuf, encode, hn, List.replicate_succ]
      simp only [List.append_assoc, List.cons_append]
    have hdrop := drop_add_of_drop hfront
    simp only [List.length_append, length_toBytes] at hdrop
    rw [hdrop, cString_append h.name]
  · have hname : evt.name = [] := by
      by_contra hname
      exact hpos (Nat.zero_lt_of_lt (length_lt_nameLen hname))
    rw [hname]

/-- The loop sees the events that were put in, whatever lies behind them. -/
theorem receiveBytes_eq {events : List RawEvent} (h : ∀ evt ∈ events, WellFormed evt)
    (s : State) {buf rest : Bytes} {i : Nat} (hbuf : buf.drop i = events.flatMap encode ++ rest) :
    s.receiveBytes buf (i + (events.flatMap encode).length) i = s.receiveAll events := by
  induction events generalizing s i with
  | nil =>
      rw [State.receiveBytes, if_neg (by simp)]
      rfl
  | cons evt events ih =>
      obtain ⟨hevt, hrest⟩ := List.forall_mem_cons.mp h
      rw [List.flatMap_cons, List.append_assoc] at hbuf
      have hnext := drop_add_of_drop hbuf
      have hat : s.receiveAt buf i ⟨evt.wd, evt.mask, evt.cookie, nameLen evt.name⟩ =
          s.receive evt := by
        unfold State.receiveAt
        rw [name_encode hevt hbuf]
        cases hwatch : s.watches[evt.wd]? with
        | none => simp only [State.receive, hwatch]
        | some p => rfl
      have hlen : i + eventSize + nameLen evt.name = i + (encode evt).length := by
        rw [length_encode, Nat.add_assoc]
      have hend : i + ((evt :: events).flatMap encode).length =
          i + (encode evt).length + (events.flatMap encode).length := by
        rw [List.flatMap_cons, List.length_append, Nat.add_assoc]
      have hmore : i < i + ((evt :: events).flatMap encode).length := by
        rw [hend, length_encode]
        unfold eventSize
        omega
      rw [State.receiveBytes, if_pos hmore, header_encode hevt hbuf]
      simp only
      rw [hat, State.receiveAll]
      congr 1
      funext outcome
      obtain ⟨r, s₁⟩ := outcome
      cases r with
      | error e => rfl
      | ok _ =>
          simp only
          rw [hlen, hend]
          exact ih hrest s₁ hnext

theorem receiveBytes_front {events : List RawEvent} (h : ∀ evt ∈ events, WellFormed evt)
    (s : State) (rest : Bytes) :
    s.receiveBytes (events.flatMap encode ++ rest) (events.flatMap encode).length 0 =
      s.receiveAll events := by
  have hloop := receiveBytes_eq h s (List.drop_zero (l := events.flatMap encode ++ rest))
  rwa [Nat.zero_add] at hloop

/-! ## Reading -/

/-- A read is cut short by the room for the largest event at the earliest. -/
theorem le_fitting {queue : List RawEvent} (h : ∀ evt ∈ queue, WellFormed evt) (n room : Nat)
    (hroom : 272 * n ≤ room) : min n queue.length ≤ fitting room queue := by
  induction queue generalizing n room with
  | nil => simp
  | cons evt queue ih =>
      obtain ⟨hevt, hrest⟩ := List.forall_mem_cons.mp h
      have hlength := length_encode_le hevt
      cases n with
      | zero => simp
      | succ n =>
          have := ih hrest n (room - (encode evt).length) (by omega)
          rw [fitting, if_pos (by omega), List.length_cons]
          omega

theorem waitForBytes_eq (h : ∀ evt ∈ s.kernel.queue, WellFormed evt) (buf : Bytes) :
    s.waitForBytes buf = s.waitForEvents (fitting bufLen s.kernel.queue) := by
  unfold State.waitForBytes State.waitForEvents
  simp only
  split_ifs with hfd hnone
  · rfl
  · -- there is room for any one event
    obtain ⟨hqueue, hcount⟩ := hnone
    have := le_fitting h 1 bufLen (by decide)
    have := List.length_pos_iff.mpr hqueue
    omega
  · have htake : ∀ evt ∈ s.kernel.queue.take (fitting bufLen s.kernel.queue), WellFormed evt :=
      fun evt hevt => h evt (List.mem_of_mem_take hevt)
    exact receiveBytes_front htake _ _

/-! ## One read after another -/

theorem receiveAll_append (s : State) (front back : List RawEvent) :
    s.receiveAll (front ++ back) = (s.receiveAll front).bind fun outcome =>
      match outcome with
      | (.ok _, s) => s.receiveAll back
      | (.error e, s) => some (.error e, s) := by
  induction front generalizing s with
  | nil => rfl
  | cons evt front ih =>
      rw [List.cons_append, State.receiveAll, State.receiveAll, Option.bind_assoc]
      congr 1
      funext outcome
      obtain ⟨r, s₁⟩ := outcome
      cases r with
      | error e => rfl
      | ok _ => exact ih s₁

/-- The wrapper with another kernel. -/
def Outcome.withKernel (k : Instance) (outcome : Outcome) : Outcome :=
  (outcome.1, { outcome.2 with kernel := k })

theorem disable_kernel (s : State) (k : Instance) (p : Ptr) :
    State.disable { s with kernel := k } p = (s.disable p).map (Outcome.withKernel k) := by
  unfold State.disable
  simp only
  split_ifs
  · cases (s.heap p).owner <;> rfl
  · rfl

theorem receive_kernel (s : State) (k : Instance) (evt : RawEvent) :
    State.receive { s with kernel := k } evt = (s.receive evt).map (Outcome.withKernel k) := by
  unfold State.receive
  simp only
  cases s.watches[evt.wd]? with
  | none => rfl
  | some p =>
      simp only
      split_ifs
      · rw [disable_kernel, Option.map_map, Option.map_map]
        congr 1
        funext outcome
        obtain ⟨r, s₁⟩ := outcome
        cases r <;> rfl
      · rfl

/-- The loop does not look at the kernel. -/
theorem receiveAll_kernel (s : State) (k : Instance) (events : List RawEvent) :
    State.receiveAll { s with kernel := k } events =
      (s.receiveAll events).map (Outcome.withKernel k) := by
  induction events generalizing s with
  | nil => rfl
  | cons evt events ih =>
      rw [State.receiveAll, State.receiveAll, receive_kernel, Option.bind_map, Option.map_bind]
      congr 1
      funext outcome
      obtain ⟨r, s₁⟩ := outcome
      cases r with
      | error e => rfl
      | ok _ => exact ih s₁

theorem eq_of_map_withKernel {o : Option Outcome} {k : Instance}
    (h : o.map (Outcome.withKernel k) = some (.ok (), s)) :
    ∃ t, o = some (.ok (), t) ∧ s = { t with kernel := k } := by
  obtain ⟨⟨r, t⟩, ho, heq⟩ := Option.map_eq_some_iff.mp h
  obtain ⟨rfl, rfl⟩ := Prod.mk.inj heq
  exact ⟨t, ho, rfl⟩

theorem readEach_eq (hagree : Agree s) (hfd : s.fd ≠ -1)
    (hwf : ∀ evt ∈ s.kernel.queue, WellFormed evt) {bufs : List Bytes}
    (hbufs : s.kernel.queue.length ≤ 120 * bufs.length) :
    ∃ s', s.receiveAll s.kernel.queue = some (.ok (), s') ∧
      s.readEach bufs =
        some (.ok (), { s' with kernel := { s.kernel with queue := [] } }) := by
  induction bufs generalizing s with
  | nil =>
      have hqueue : s.kernel.queue = [] := by simpa using hbufs
      refine ⟨s, by rw [hqueue]; rfl, ?_⟩
      rw [State.readEach, ← hqueue]
  | cons buf bufs ih =>
      have hcount := le_fitting hwf 120 bufLen (by decide)
      generalize hn : fitting bufLen s.kernel.queue = count at hcount
      obtain ⟨s₁, hs₁, hagree₁, hfd₁, hkernel₁, -⟩ := waitForEvents_spec hagree hfd count
      have hqueue₁ : s₁.kernel.queue = s.kernel.queue.drop count := by rw [hkernel₁]
      obtain ⟨s₂, hs₂, hread⟩ := ih hagree₁ (hfd₁ ▸ hfd)
        (fun evt hevt => hwf evt (List.mem_of_mem_drop (hqueue₁ ▸ hevt)))
        (by rw [hqueue₁, List.length_drop]; rw [List.length_cons] at hbufs; omega)
      -- the first read and the others see what one read of everything would see
      have hfirst := hs₁
      rw [State.waitForEvents, if_neg hfd, receiveAll_kernel] at hfirst
      obtain ⟨t, ht, hst⟩ := eq_of_map_withKernel hfirst
      rw [hst, receiveAll_kernel] at hs₂
      obtain ⟨u, hu, hsu⟩ := eq_of_map_withKernel hs₂
      refine ⟨u, ?_, ?_⟩
      · rw [← List.take_append_drop count s.kernel.queue, receiveAll_append, ht]
        exact hu
      · rw [State.readEach, waitForBytes_eq hwf, hn, hs₁]
        simp only [Option.bind_some]
        rw [hread, hsu, hkernel₁]

section Runs

variable (fd : Nat) (resolve : Bytes → UInt32 → Except Int Inode)
  (objects : Ptr → Bytes × UInt32 × Bool)

/-- After any run, enough reads in a row handle all that was queued, event after event, whatever
`m_buf` held before each of them; no read throws, and none goes past what was put in. -/
theorem reads_deliver_all (calls : List Call)
    (hproper : EachStep State.step Proper (State.init fd resolve objects) calls)
    (hs : run State.step (State.init fd resolve objects) calls = some s) (hfd : s.fd ≠ -1)
    (hwf : ∀ evt ∈ s.kernel.queue, WellFormed evt) (bufs : List Bytes)
    (hbufs : s.kernel.queue.length ≤ 120 * bufs.length) :
    ∃ s', s.receiveAll s.kernel.queue = some (.ok (), s') ∧
      s.readEach bufs =
        some (.ok (), { s' with kernel := { s.kernel with queue := [] } }) :=
  readEach_eq (kept_of_proper fd resolve objects hproper hs).1 hfd hwf hbufs

/-- A file is made in the one directory watched, and read about with zeros in `m_buf`. -/
theorem reads_deliver_all_ls :
    let calls := [.add 0, .fire ⟨1, 7, inCreate⟩ ⟨1, inCreate, 0, bytes "ls"⟩]
    let start := State.init 3 (fun _ _ => .ok 7) fun _ => (bytes "/bin", inCreate, true)
    ∃ s, run State.step start calls = some s ∧
      ∃ s', s.receiveAll s.kernel.queue = some (.ok (), s') ∧
        s.readEach [List.replicate bufLen 0] =
          some (.ok (), { s' with kernel := { s.kernel with queue := [] } }) := by
  intro calls start
  refine ⟨_, rfl, reads_deliver_all 3 (fun _ _ => .ok 7) (fun _ => (bytes "/bin", inCreate, true))
    calls ?_ rfl (by decide) ?_ [List.replicate bufLen 0] (by decide)⟩
  · refine eachStep_cons.mpr ⟨trivial, fun s hs => eachStep_cons.mpr ⟨?_, fun _ _ => eachStep_nil⟩⟩
    obtain rfl := Option.some.inj hs
    show _ ∈ _ ∧ _ ∧ _
    decide
  · intro evt hevt
    obtain rfl := List.mem_singleton.mp hevt
    exact ⟨by decide, by decide, by decide⟩

end Runs

end TudorDo.Objects
