import TudorDo.Lib.Ascii
import TudorDo.Lib.Str

/-!
# Splitting a command line into arguments

A shell-style command line is read from the left by a machine that knows which quoting it is in
(`Quote`) and the argument it is building, if any. Blanks, tabs and newlines outside quotes end an
argument; a backslash outside quotes makes the next character literal and removes a newline; single
quotes keep everything; between double quotes a backslash is kept except before one of the
characters it can escape there. An argument exists as soon as a character or a quote of it was read,
so `''` is an empty argument. A quoting still open at the end is an error.

Two facts carry what is proved with it:

* text without special characters, and blanks behind a backslash, go into the argument as they are
  (`go_plain`, `go_escape`);
* outside quotes every special character that gets into an argument has cost a backslash, and a
  backslash has cost two; once a quote opens, that quote is lost (`go_cost`).
-/

namespace TudorDo.Lib.Shell

open Ascii

/-- Where the reader stands. -/
inductive Quote
  | unquoted
  /-- just behind an unquoted backslash -/
  | escaped
  | single
  | double
  /-- just behind a backslash between double quotes -/
  | doubleEscaped
  deriving DecidableEq

inductive Error
  /-- the text ends inside a quotation or just behind a backslash -/
  | badQuoting
  /-- there is no argument at all -/
  | emptyString
  deriving DecidableEq

/-- What separates arguments outside quotes. -/
def isBlank (c : UInt8) : Bool := c = space || c = tab || c = newline

/-- What has a meaning of its own outside quotes. -/
def isSpecial (c : UInt8) : Bool := isBlank c || c = backslash || c = squote || c = dquote

/-- What a backslash can escape between double quotes. -/
def isDoubleSpecial (c : UInt8) : Bool :=
  c = dquote || c = backslash || c = backquote || c = dollar

/-- The argument being built, one character longer. -/
def push (tok : Option Bytes) (c : UInt8) : Option Bytes := some (tok.getD [] ++ [c])

/-- What reading one character does: the quoting and the argument it leaves, and the argument it
finished, if it finished one. -/
structure Step where
  quote : Quote
  tok : Option Bytes
  done : List Bytes := []

def step (tok : Option Bytes) (c : UInt8) : Quote → Step
  | .unquoted =>
    if isBlank c then ⟨.unquoted, none, tok.toList⟩
    else if c = backslash then ⟨.escaped, tok, []⟩
    else if c = squote then ⟨.single, some (tok.getD []), []⟩
    else if c = dquote then ⟨.double, some (tok.getD []), []⟩
    else ⟨.unquoted, push tok c, []⟩
  | .escaped => ⟨.unquoted, if c = newline then tok else push tok c, []⟩
  | .single => if c = squote then ⟨.unquoted, tok, []⟩ else ⟨.single, push tok c, []⟩
  | .double =>
    if c = dquote then ⟨.unquoted, tok, []⟩
    else if c = backslash then ⟨.doubleEscaped, tok, []⟩
    else ⟨.double, push tok c, []⟩
  | .doubleEscaped =>
    if c = newline then ⟨.double, tok, []⟩
    else if isDoubleSpecial c then ⟨.double, push tok c, []⟩
    else ⟨.double, push (push tok backslash) c, []⟩

/-- Read on from where the reader stands, with the argument built so far. -/
def go (q : Quote) (tok : Option Bytes) : Bytes → Except Error (List Bytes)
  | [] => if q = .unquoted then .ok tok.toList else .error .badQuoting
  | c :: s =>
    match go (step tok c q).quote (step tok c q).tok s with
    | .ok args => .ok ((step tok c q).done ++ args)
    | .error e => .error e

/-- Split a command line into its arguments. -/
def parseArgv (line : Bytes) : Except Error (List Bytes) :=
  match go .unquoted none line with
  | .ok [] => .error .emptyString
  | r => r

/-! ## Text that goes in unchanged -/

/-- A nonempty word without special characters. -/
def PlainWord (w : Bytes) : Prop := w ≠ [] ∧ ∀ c ∈ w, isSpecial c = false

instance (w : Bytes) : Decidable (PlainWord w) :=
  haveI := List.decidableBAll (fun c => isSpecial c = false) w
  inferInstanceAs (Decidable (w ≠ [] ∧ ∀ c ∈ w, isSpecial c = false))

theorem go_cons_of_done_nil {q : Quote} {tok : Option Bytes} {c : UInt8} {s : Bytes}
    (h : (step tok c q).done = []) :
    go q tok (c :: s) = go (step tok c q).quote (step tok c q).tok s := by
  rw [go, h]
  cases go (step tok c q).quote (step tok c q).tok s <;> rfl

theorem step_plain {c : UInt8} (hc : isSpecial c = false) (tok : Option Bytes) :
    step tok c .unquoted = ⟨.unquoted, push tok c, []⟩ := by
  simp only [isSpecial, Bool.or_eq_false_iff, decide_eq_false_iff_not] at hc
  obtain ⟨⟨⟨hblank, hbs⟩, hsq⟩, hdq⟩ := hc
  simp [step, hblank, hbs, hsq, hdq]

theorem go_cons_plain {c : UInt8} (hc : isSpecial c = false) (tok : Option Bytes) (s : Bytes) :
    go .unquoted tok (c :: s) = go .unquoted (push tok c) s := by
  rw [go_cons_of_done_nil (by rw [step_plain hc]), step_plain hc]

theorem go_escape {c : UInt8} (hc : c ≠ newline) (tok : Option Bytes) (s : Bytes) :
    go .unquoted tok (backslash :: c :: s) = go .unquoted (push tok c) s := by
  have h₁ : step tok backslash .unquoted = ⟨.escaped, tok, []⟩ := by
    simp [step, show isBlank backslash = false by decide]
  have h₂ : step tok c .escaped = ⟨.unquoted, push tok c, []⟩ := by
    simp [step, hc]
  rw [go_cons_of_done_nil (by rw [h₁]), h₁, go_cons_of_done_nil (by rw [h₂]), h₂]

theorem go_space (tok : Option Bytes) (s : Bytes) :
    go .unquoted tok (space :: s) = (go .unquoted none s).map (tok.toList ++ ·) := by
  have hstep : step tok space .unquoted = ⟨.unquoted, none, tok.toList⟩ := by
    simp [step, show isBlank space = true by decide]
  rw [go, hstep]
  cases go .unquoted none s <;> rfl

theorem go_plain {w : Bytes} (hw : ∀ c ∈ w, isSpecial c = false) (t s : Bytes) :
    go .unquoted (some t) (w ++ s) = go .unquoted (some (t ++ w)) s := by
  induction w generalizing t with
  | nil => simp
  | cons c w ih =>
      rw [List.cons_append, go_cons_plain (hw c (by simp)), push, Option.getD_some,
        ih fun x hx => hw x (by simp [hx])]
      simp

theorem go_word {w : Bytes} (hw : PlainWord w) (s : Bytes) :
    go .unquoted none (w ++ s) = go .unquoted (some w) s := by
  obtain ⟨c, w, rfl⟩ := List.exists_cons_of_ne_nil hw.1
  rw [List.cons_append, go_cons_plain (hw.2 c (by simp)), push,
    go_plain fun x hx => hw.2 x (by simp [hx])]
  rfl

/-- A text whose only special characters are spaces goes in whole when its spaces are escaped. -/
theorem go_escaped_spaces {p : Bytes} (hp : ∀ c ∈ p, isSpecial c = true → c = space) (t s : Bytes) :
    go .unquoted (some t) (Str.escape backslash space p ++ s) = go .unquoted (some (t ++ p)) s := by
  induction p generalizing t with
  | nil => simp
  | cons c p ih =>
      have ih := ih (fun x hx => hp x (by simp [hx])) (t ++ [c])
      by_cases hc : c = space
      · subst hc
        rw [Str.escape_cons_self, List.cons_append, List.cons_append, go_escape (by decide), push,
          Option.getD_some, ih]
        simp
      · have hplain : isSpecial c = false := by
          by_contra h
          exact hc (hp c (by simp) (by simpa using h))
        rw [Str.escape_cons_ne hc, List.cons_append, go_cons_plain hplain, push, Option.getD_some,
          ih]
        simp

/-- A word with a space behind it is an argument of its own. -/
theorem go_word_space {w : Bytes} (hw : PlainWord w) (s : Bytes) :
    go .unquoted none (w ++ space :: s) = (go .unquoted none s).map (w :: ·) := by
  rw [go_word hw, go_space]
  rfl

theorem go_words {ws : List Bytes} (hws : ∀ w ∈ ws, PlainWord w) (s : Bytes) :
    go .unquoted none (ws.flatMap (fun w => w ++ [space]) ++ s)
      = (go .unquoted none s).map (ws ++ ·) := by
  induction ws with
  | nil => cases h : go .unquoted none s <;> simp [h, Except.map]
  | cons w ws ih =>
      rw [List.flatMap_cons, List.append_assoc, List.append_assoc, List.singleton_append,
        go_word_space (hws w (by simp)), ih fun x hx => hws x (by simp [hx])]
      cases go .unquoted none s <;> rfl

/-- Words with a space before each follow the argument being built. -/
theorem go_more_words {ws : List Bytes} (hws : ∀ w ∈ ws, PlainWord w) (t : Bytes) :
    go .unquoted (some t) (ws.flatMap fun w => space :: w) = .ok (t :: ws) := by
  induction ws generalizing t with
  | nil => rfl
  | cons w ws ih =>
      rw [List.flatMap_cons, List.cons_append, go_space, go_word (hws w (by simp)),
        ih fun x hx => hws x (by simp [hx])]
      rfl

theorem parseArgv_eq_ok {line : Bytes} {args : List Bytes} (hne : args ≠ []) :
    parseArgv line = .ok args ↔ go .unquoted none line = .ok args := by
  unfold parseArgv
  cases h : go .unquoted none line with
  | error e => simp
  | ok args' =>
      cases args' with
      | nil => simpa using hne.symm
      | cons a as => simp

/-- One character adds to the argument being built, or ends it. -/
theorem step_append (q : Quote) (t : Bytes) (c : UInt8) :
    (∃ a, (step (some t) c q).tok = some (t ++ a) ∧ (step (some t) c q).done = []) ∨
      (step (some t) c q).done = [t] := by
  cases q with
  | unquoted =>
      simp only [step]
      split_ifs
      · exact .inr rfl
      · exact .inl ⟨[], by simp⟩
      · exact .inl ⟨[], by simp⟩
      · exact .inl ⟨[], by simp⟩
      · exact .inl ⟨[c], by simp [push]⟩
  | escaped =>
      simp only [step]
      split_ifs
      · exact .inl ⟨[], by simp⟩
      · exact .inl ⟨[c], by simp [push]⟩
  | single =>
      simp only [step]
      split_ifs
      · exact .inl ⟨[], by simp⟩
      · exact .inl ⟨[c], by simp [push]⟩
  | double =>
      simp only [step]
      split_ifs
      · exact .inl ⟨[], by simp⟩
      · exact .inl ⟨[], by simp⟩
      · exact .inl ⟨[c], by simp [push]⟩
  | doubleEscaped =>
      simp only [step]
      split_ifs
      · exact .inl ⟨[], by simp⟩
      · exact .inl ⟨[c], by simp [push]⟩
      · exact .inl ⟨[backslash, c], by simp [push]⟩

theorem go_ok_cons {q : Quote} {tok : Option Bytes} {c : UInt8} {s : Bytes} {args : List Bytes}
    (h : go q tok (c :: s) = .ok args) :
    ∃ rest, go (step tok c q).quote (step tok c q).tok s = .ok rest ∧
      args = (step tok c q).done ++ rest := by
  rw [go] at h
  cases hrest : go (step tok c q).quote (step tok c q).tok s with
  | error e => simp [hrest] at h
  | ok rest => exact ⟨rest, rfl, by simpa [hrest] using h.symm⟩

/-- The argument being built starts the first argument. -/
theorem go_first {q : Quote} {t s : Bytes} {args : List Bytes} (h : go q (some t) s = .ok args) :
    ∃ a rest, args = (t ++ a) :: rest := by
  induction s generalizing q t args with
  | nil =>
      rw [go] at h
      split at h
      · cases h
        exact ⟨[], [], by simp⟩
      · cases h
  | cons c s ih =>
      obtain ⟨rest, hrest, rfl⟩ := go_ok_cons h
      rcases step_append q t c with ⟨a, htok, hdone⟩ | hdone
      · rw [htok] at hrest
        obtain ⟨a', rest', rfl⟩ := ih hrest
        exact ⟨a ++ a', rest', by simp [hdone]⟩
      · exact ⟨[], rest, by simp [hdone]⟩

/-! ## What a special character costs -/

/-- The quote characters of a text. -/
def quotes (s : Bytes) : Nat := s.countP fun c => c = squote || c = dquote

/-- The backslashes a text needs to get into an argument outside quotes. -/
def cost (s : Bytes) : Nat := s.countP isSpecial + s.count backslash

/-- The backslash read and not yet used up. -/
def pending : Quote → Nat
  | .escaped => 1
  | _ => 0

@[simp] theorem quotes_append (s t : Bytes) : quotes (s ++ t) = quotes s + quotes t :=
  List.countP_append

@[simp] theorem cost_append (s t : Bytes) : cost (s ++ t) = cost s + cost t := by
  simp only [cost, List.countP_append, List.count_append]
  omega

@[simp] theorem quotes_nil : quotes [] = 0 := rfl

@[simp] theorem cost_nil : cost [] = 0 := rfl

@[simp] theorem flatten_toList (tok : Option Bytes) : tok.toList.flatten = tok.getD [] := by
  cases tok <;> simp

theorem cost_singleton (c : UInt8) : cost [c] ≤ 1 + [c].count backslash := by
  have : [c].countP isSpecial ≤ 1 := List.countP_le_length
  unfold cost
  omega

/-- One character puts at most itself into the arguments, as far as quote characters go. -/
theorem step_quotes (q : Quote) (tok : Option Bytes) (c : UInt8) :
    quotes (step tok c q).done.flatten + quotes ((step tok c q).tok.getD [])
      ≤ quotes (tok.getD []) + quotes [c] := by
  cases q with
  | unquoted =>
      simp only [step]
      split_ifs <;> simp [push]
  | escaped =>
      simp only [step]
      split_ifs <;> simp [push]
  | single =>
      simp only [step]
      split_ifs <;> simp [push]
  | double =>
      simp only [step]
      split_ifs <;> simp [push]
  | doubleEscaped =>
      have hbs : quotes [backslash] = 0 := by decide
      simp only [step]
      split_ifs
      · simp
      · simp [push]
      · simp only [push, Option.getD_some, quotes_append, hbs, List.flatten_nil, quotes_nil]
        omega

/-- Outside quotes a character either opens a quotation, and is lost, or pays with its backslashes
for what gets into the arguments. -/
theorem step_cost {q : Quote} (hq : q = .unquoted ∨ q = .escaped) (tok : Option Bytes) (c : UInt8) :
    quotes (step tok c q).done.flatten + quotes ((step tok c q).tok.getD [])
        < quotes (tok.getD []) + quotes [c] ∨
      ((step tok c q).quote = .unquoted ∨ (step tok c q).quote = .escaped) ∧
        cost (step tok c q).done.flatten + cost ((step tok c q).tok.getD [])
            + pending (step tok c q).quote
          ≤ cost (tok.getD []) + [c].count backslash + pending q := by
  rcases hq with rfl | rfl
  · simp only [step]
    split_ifs with hblank hbs hsq hdq
    · right
      simp [pending]
    · right
      subst hbs
      simp [pending]
    · left
      subst hsq
      simp [show quotes [squote] = 1 by decide]
    · left
      subst hdq
      simp [show quotes [dquote] = 1 by decide]
    · right
      have hcost : cost [c] = 0 := by simp [cost, isSpecial, hblank, hbs, hsq, hdq]
      simp [pending, push, hcost]
  · right
    have hc := cost_singleton c
    simp only [step]
    split_ifs
    · simp only [true_or, true_and, pending, List.flatten_nil, cost_nil]
      omega
    · simp only [true_or, true_and, pending, push, Option.getD_some, cost_append, List.flatten_nil,
        cost_nil]
      omega

/-- Quote characters get into the arguments from the text only. -/
theorem go_quotes {q : Quote} {tok : Option Bytes} {s : Bytes} {args : List Bytes}
    (h : go q tok s = .ok args) : quotes args.flatten ≤ quotes (tok.getD []) + quotes s := by
  induction s generalizing q tok args with
  | nil =>
      rw [go] at h
      split at h
      · cases h
        simp
      · cases h
  | cons c s ih =>
      obtain ⟨rest, hrest, rfl⟩ := go_ok_cons h
      have hstep := step_quotes q tok c
      have ih := ih hrest
      rw [← List.singleton_append, quotes_append, List.flatten_append, quotes_append]
      omega

/-- Read from outside quotes, a text either loses a quote character or pays with its backslashes for
the special characters of its arguments. -/
theorem go_cost {q : Quote} (hq : q = .unquoted ∨ q = .escaped) {tok : Option Bytes} {s : Bytes}
    {args : List Bytes} (h : go q tok s = .ok args) :
    quotes args.flatten < quotes (tok.getD []) + quotes s ∨
      cost args.flatten ≤ cost (tok.getD []) + s.count backslash + pending q := by
  induction s generalizing q tok args with
  | nil =>
      right
      rw [go] at h
      split at h
      · cases h
        simp
      · cases h
  | cons c s ih =>
      obtain ⟨rest, hrest, rfl⟩ := go_ok_cons h
      rw [← List.singleton_append, quotes_append, List.flatten_append, quotes_append, cost_append,
        List.count_append]
      rcases step_cost hq tok c with hlost | ⟨hq', hpaid⟩
      · -- a quote opens: it is lost whatever follows
        have := go_quotes hrest
        left
        omega
      · have hstep := step_quotes q tok c
        rcases ih hq' hrest with hlost | hcost
        · left
          omega
        · right
          omega

/-! ## Escaping the spaces only -/

theorem quotes_escape (s : Bytes) : quotes (Str.escape backslash space s) = quotes s := by
  induction s with
  | nil => rfl
  | cons c s ih =>
      by_cases hc : c = space
      · subst hc
        simp [Str.escape_cons_self, quotes] at ih ⊢
        exact ih
      · rw [Str.escape_cons_ne hc, ← List.singleton_append, quotes_append, ih, ← quotes_append]
        rfl

theorem count_escape (s : Bytes) :
    (Str.escape backslash space s).count backslash = s.count backslash + s.count space := by
  induction s with
  | nil => rfl
  | cons c s ih =>
      by_cases hc : c = space
      · subst hc
        simp only [Str.escape_cons_self, List.count_cons_self, ih,
          List.count_cons_of_ne backslash_ne_space.symm]
        omega
      · rw [Str.escape_cons_ne hc, List.count_cons, List.count_cons, List.count_cons_of_ne hc, ih]
        omega

/-- Where a text has no more special characters than spaces, they are the spaces. -/
theorem eq_space_of_countP_le {s : Bytes} (h : s.countP isSpecial ≤ s.count space) {c : UInt8}
    (hc : c ∈ s) (hspecial : isSpecial c = true) : c = space := by
  by_contra hne
  obtain ⟨l, r, rfl⟩ := List.append_of_mem hc
  have hle : ∀ t : Bytes, t.count space ≤ t.countP isSpecial := fun t =>
    List.countP_mono_left fun x _ hx => by
      obtain rfl : x = space := by simpa using hx
      decide
  have hl := hle l
  have hr := hle r
  rw [List.countP_append, List.countP_cons_of_pos hspecial, List.count_append,
    List.count_cons_of_ne hne] at h
  omega

/-- A text without special characters but spaces is the first argument when its spaces are escaped,
and the words behind it are the others. -/
theorem go_escape_words {p : Bytes} (hne : p ≠ [])
    (hp : ∀ c ∈ p, isSpecial c = true → c = space) {ws : List Bytes}
    (hws : ∀ w ∈ ws, PlainWord w) :
    go .unquoted none (Str.escape backslash space p ++ ws.flatMap fun w => space :: w)
      = .ok (p :: ws) := by
  obtain ⟨c, p, rfl⟩ := List.exists_cons_of_ne_nil hne
  have hrest : go .unquoted (some [c])
      (Str.escape backslash space p ++ ws.flatMap fun w => space :: w) = .ok ((c :: p) :: ws) := by
    rw [go_escaped_spaces fun x hx => hp x (List.mem_cons_of_mem c hx), go_more_words hws]
    rfl
  by_cases hc : c = space
  · subst hc
    rw [Str.escape_cons_self, List.cons_append, List.cons_append, go_escape (by decide)]
    exact hrest
  · have hplain : isSpecial c = false := by
      by_contra hspecial
      exact hc (hp c (by simp) (by simpa using hspecial))
    rw [Str.escape_cons_ne hc, List.cons_append, go_cons_plain hplain]
    exact hrest

/-- With its spaces escaped a text is read as one argument, the text itself, exactly when it has no
special characters but spaces. -/
theorem go_escape_iff {p : Bytes} (hne : p ≠ []) :
    go .unquoted none (Str.escape backslash space p) = .ok [p] ↔
      ∀ c ∈ p, isSpecial c = true → c = space := by
  constructor
  · intro h c hc hspecial
    have hflat : [p].flatten = p := List.flatten_singleton
    -- no quote character is lost, so every special character was paid for; the backslashes that
    -- escaping added pay for the spaces only
    rcases go_cost (.inl rfl) h with hlost | hpaid
    · rw [hflat, quotes_escape] at hlost
      simp at hlost
    · rw [hflat, count_escape, cost] at hpaid
      simp only [Option.getD_none, cost_nil, pending] at hpaid
      exact eq_space_of_countP_le (by omega) hc hspecial
  · intro h
    simpa using go_escape_words hne h (List.forall_mem_nil PlainWord)

end TudorDo.Lib.Shell
