import BitcoinBlock.Proofs.Wire.Kind
import BitcoinBlock.Wire.Cursor

/-! # Runs of a cursor

A step moves the cursor behind the bytes of what it finds, or leaves it where it is. So the bytes
that a run has passed are those of everything it found, in order.
-/
namespace BitcoinBlock.Wire.Cursor

variable {bytes : List UInt8} {c d next : Cursor} {s : Step} {f : Found} {front : List Found}
  {steps : List Step} {n : Nat}

/-- What a step can find: a value of the kind asked for that can be read back, or as many bytes as
asked for. -/
inductive Answers : Step → Found → Prop where
  | value {kind : Kind} {v : kind.Value} (hv : kind.Sized v ∧ kind.Readable v) :
      Answers (.decode kind) (.value kind v)
  | bytes (l : List UInt8) : Answers (.read l.length) (.bytes l)

theorem decode_eq_ok_iff {kind : Kind} {v : kind.Value} :
    c.decode kind.codec = .ok (v, next) ↔
      (kind.Sized v ∧ kind.Readable v) ∧ kind.codec.encode v <+: c.remaining ∧
        next = c.advance (kind.codec.encode v).length := by
  simp only [Cursor.decode, bind_eq_ok_iff, Prod.exists, kind.codec_exact.decodeAt_eq_ok_iff,
    List.prefix_iff_eq_take]
  constructor
  · rintro ⟨v, _, ⟨hv, rfl, htake⟩, hnext⟩
    cases hnext
    exact ⟨hv, htake.symm, rfl⟩
  · rintro ⟨hv, htake, rfl⟩
    exact ⟨v, _, ⟨hv, rfl, htake.symm⟩, rfl⟩

theorem read_eq_ok_iff {n : Nat} {l : List UInt8} :
    c.read n = .ok (l, next) ↔
      l.length = n ∧ l <+: c.remaining ∧ next = c.advance n := by
  simp only [Cursor.read, bind_eq_ok_iff, Prod.exists, Decoder.take_eq_ok_iff]
  constructor
  · rintro ⟨l, rest, ⟨hlen, hremaining⟩, hnext⟩
    cases hnext
    exact ⟨hlen, ⟨rest, hremaining.symm⟩, rfl⟩
  · rintro ⟨hlen, ⟨rest, hremaining⟩, rfl⟩
    exact ⟨l, rest, ⟨hlen, hremaining.symm⟩, rfl⟩

/-- A step succeeds when the bytes of an answer stand at the cursor, and passes them. -/
theorem step_eq_ok_iff :
    c.step s = .ok (f, next) ↔
      Answers s f ∧ f.encode <+: c.remaining ∧ next = c.advance f.encode.length := by
  cases s with
  | decode kind =>
    simp only [step, bind_eq_ok_iff, Prod.exists, decode_eq_ok_iff]
    constructor
    · rintro ⟨v, _, ⟨hv, hprefix, rfl⟩, hfound⟩
      cases hfound
      exact ⟨.value hv, hprefix, rfl⟩
    · rintro ⟨⟨hv⟩, hprefix, rfl⟩
      exact ⟨_, _, ⟨hv, hprefix, rfl⟩, rfl⟩
  | read n =>
    simp only [step, bind_eq_ok_iff, Prod.exists, read_eq_ok_iff]
    constructor
    · rintro ⟨l, _, ⟨rfl, hprefix, rfl⟩, hfound⟩
      cases hfound
      exact ⟨.bytes l, hprefix, rfl⟩
    · rintro ⟨⟨⟩, hprefix, rfl⟩
      exact ⟨_, _, ⟨rfl, hprefix, rfl⟩, rfl⟩

theorem isEmpty_iff (c : Cursor) : c.isEmpty = true ↔ c.remaining = [] := by
  rw [isEmpty, remaining, decide_eq_true_iff, List.drop_eq_nil_iff]

/-- The cursor in front of all bytes. -/
def start (bytes : List UInt8) : Cursor := { bytes }

/-- The cursor at every point of a run, from the first step's start to the last one's end. -/
def points (c : Cursor) (steps : List Step) : List Cursor := c :: (c.run steps).map Prod.snd

/-- What the steps with these results found, in order. -/
def found (results : List (Except Error Found × Cursor)) : List Found :=
  results.filterMap fun result => result.1.toOption

/-- The cursor stands in `bytes`, right behind the bytes of what was found. -/
structure Passed (bytes : List UInt8) (front : List Found) (c : Cursor) : Prop where
  bytes_eq : c.bytes = bytes
  position_le : c.position ≤ bytes.length
  take_position : bytes.take c.position = front.flatMap Found.encode

theorem passed_start (bytes : List UInt8) : Passed bytes [] (start bytes) :=
  ⟨rfl, Nat.zero_le _, rfl⟩

theorem Passed.step (h : Passed bytes front c) (hstep : c.step s = .ok (f, next)) :
    Passed bytes (front ++ [f]) next := by
  obtain ⟨-, hprefix, rfl⟩ := step_eq_ok_iff.mp hstep
  obtain ⟨rfl, hposition, hfront⟩ := h
  refine ⟨rfl, ?_, ?_⟩
  · have hlen := hprefix.length_le
    rw [remaining, List.length_drop] at hlen
    change c.position + f.encode.length ≤ c.bytes.length
    omega
  · change c.bytes.take (c.position + f.encode.length) = _
    have hencode : (c.bytes.drop c.position).take f.encode.length = f.encode :=
      (List.prefix_iff_eq_take.mp hprefix).symm
    rw [List.take_add, hfront, hencode, List.flatMap_append, List.flatMap_singleton]

theorem run_cons_of_ok (hstep : c.step s = .ok (f, next)) :
    c.run (s :: steps) = (.ok f, next) :: next.run steps := by
  rw [run, after, hstep]
  rfl

theorem run_cons_of_error {e : Error} (hstep : c.step s = .error e) :
    c.run (s :: steps) = (.error e, c) :: c.run steps := by
  rw [run, after, hstep]
  rfl

/-- What was found before a run starts stays in front: `front` grows by one with every step that
succeeds. -/
theorem Passed.run (h : Passed bytes front c) (hpoint : (c.points steps)[n]? = some d) :
    Passed bytes (front ++ found ((c.run steps).take n)) d := by
  induction steps generalizing c front n with
  | nil =>
    cases n with
    | zero =>
      cases hpoint
      simpa [found] using h
    | succ n => cases hpoint
  | cons s rest ih =>
    cases n with
    | zero =>
      cases hpoint
      simpa [found] using h
    | succ n =>
      cases hstep : c.step s with
      | error e =>
        rw [points, run_cons_of_error hstep] at hpoint
        rw [run_cons_of_error hstep]
        exact ih h hpoint
      | ok p =>
        obtain ⟨f, next⟩ := p
        rw [points, run_cons_of_ok hstep] at hpoint
        have hrest := ih (h.step hstep) hpoint
        rw [run_cons_of_ok hstep]
        rw [List.append_assoc] at hrest
        exact hrest

theorem exists_step_of_run {result : Except Error Found}
    (hresult : (c.run steps)[n]? = some (result, d)) :
    ∃ s before, steps[n]? = some s ∧ (c.points steps)[n]? = some before ∧
      (before.step s).map Prod.fst = result ∧ before.after s = d := by
  induction steps generalizing c n with
  | nil => cases hresult
  | cons s rest ih =>
    cases n with
    | zero =>
      cases hresult
      exact ⟨s, c, rfl, rfl, rfl, rfl⟩
    | succ n => exact ih hresult

theorem points_of_run_error {e : Error} (hresult : (c.run steps)[n]? = some (.error e, d)) :
    (c.points steps)[n]? = some d := by
  obtain ⟨s, before, -, hbefore, hstep, rfl⟩ := exists_step_of_run hresult
  cases hok : before.step s with
  | error e =>
    rw [after, hok]
    exact hbefore
  | ok p =>
    rw [hok] at hstep
    cases hstep

theorem answers_of_run_ok (hresult : (c.run steps)[n]? = some (.ok f, d)) :
    ∃ s, steps[n]? = some s ∧ Answers s f := by
  obtain ⟨s, before, hs, -, hstep, -⟩ := exists_step_of_run hresult
  obtain ⟨⟨f, next⟩, hok, rfl⟩ := map_eq_ok_iff.mp hstep
  exact ⟨s, hs, (step_eq_ok_iff.mp hok).1⟩

/-- At every point of every run from the start of some bytes, the cursor is inside them, what is
remaining are the bytes from there on, and the bytes before it are those of everything found so far.
A step finds what it asks for, or fails and does not move the cursor. -/
theorem points_pass_found (bytes : List UInt8) (steps : List Step) :
    (∀ (n : Nat) (c : Cursor), ((start bytes).points steps)[n]? = some c →
      c.position ≤ bytes.length ∧
      c.remaining = bytes.drop c.position ∧
      (c.isEmpty = true ↔ c.remaining = []) ∧
      bytes.take c.position =
        (found (((start bytes).run steps).take n)).flatMap Found.encode) ∧
    (∀ (n : Nat) (f : Found) (c : Cursor),
      ((start bytes).run steps)[n]? = some (.ok f, c) → ∃ s, steps[n]? = some s ∧ Answers s f) ∧
    ∀ (n : Nat) (e : Error) (c : Cursor),
      ((start bytes).run steps)[n]? = some (.error e, c) →
        ((start bytes).points steps)[n]? = some c := by
  refine ⟨?_, ?_, ?_⟩
  · intro n c hpoint
    have h := (passed_start bytes).run hpoint
    refine ⟨h.position_le, ?_, c.isEmpty_iff, h.take_position⟩
    rw [remaining, h.bytes_eq]
  · intro n f c hresult
    exact answers_of_run_ok hresult
  · intro n e c hresult
    exact points_of_run_error hresult

def few : List UInt8 := [1, 0x51, 0xff, 7]

/-- A script, a word that the bytes are too short for, and a byte as it stands. -/
def mixed : List Step := [.decode .script, .decode .u32, .read 1]

theorem points_pass_found_mixed :
    ((start few).points mixed)[3]? = some ⟨few, 3⟩ ∧
      [1, 0x51, 0xff] = (found (((start few).run mixed).take 3)).flatMap Found.encode ∧
      ((start few).run mixed)[2]? = some (.ok (.bytes [0xff]), ⟨few, 3⟩) ∧
      (∃ s, mixed[2]? = some s ∧ Answers s (.bytes [0xff])) ∧
      ((start few).run mixed)[1]? = some (.error .endOfData, ⟨few, 2⟩) ∧
      ((start few).points mixed)[1]? = some ⟨few, 2⟩ := by
  obtain ⟨hpoint, hok, herror⟩ := points_pass_found few mixed
  obtain ⟨-, -, -, hspelled⟩ := hpoint 3 ⟨few, 3⟩ rfl
  exact ⟨rfl, hspelled, rfl, hok 2 _ ⟨few, 3⟩ rfl, rfl, herror 1 .endOfData _ rfl⟩

end BitcoinBlock.Wire.Cursor
