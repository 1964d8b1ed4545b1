import BitcoinBlock.Proofs.Block.Reading

/-! # Reading at once and reading later

A block that is read lazily and then continued is the block that is read at once. The coinbase
counts towards the limit of the one and not of the other.
-/
namespace BitcoinBlock.Block

open Wire

variable {header : Header} {options : ReadOptions} {raw body : List UInt8} {b first : Block}
  {limit step : Nat}

/-- The same expectations, with transactions read at once up to a limit. -/
def ReadOptions.eager (options : ReadOptions) (limit : Nat) : ReadOptions :=
  { options with allTransactions := true, limit }

/-- The same expectations, with nothing read beyond the coinbase. -/
def ReadOptions.lazy (options : ReadOptions) : ReadOptions :=
  { options with allTransactions := false }

/-- A step with this limit succeeds and leads to the next block. -/
def ContinuesTo (b : Block) (limit : Nat) (next : Block) : Prop :=
  (∃ n, (b.parseTransactions limit).2.result = .ok n) ∧ (b.parseTransactions limit).1 = next

theorem read_eager_one (options : ReadOptions) (raw : List UInt8) :
    read raw (options.eager 1) = read raw options.lazy := by
  have hfront : decodeFront (options.eager 1) = decodeFront options.lazy := by
    funext data
    rw [decodeFront_eq_outcome, decodeFront_eq_outcome]
    rfl
  have hcount : checkCount (options.eager 1) = checkCount options.lazy := rfl
  simp only [read, readBody, hfront, hcount]
  rfl

/-- The batch read at once is the coinbase and the batch of a later step. -/
def Splits (limit step : Nat) : Prop :=
  ∀ data, Batch.read (if limit = 0 then data.length else limit) data =
    (Batch.read 1 data).andThen fun rest => Batch.read (if step = 0 then rest.length else step) rest

theorem splits_of_two_le (hlimit : 2 ≤ limit) : Splits limit (limit - 1) := by
  intro data
  have hlimit' : limit ≠ 0 := by omega
  have hstep : limit - 1 ≠ 0 := by omega
  have hsum : 1 + (limit - 1) = limit := by omega
  simp only [if_neg hlimit', if_neg hstep]
  rw [← Batch.read_add, hsum]

theorem splits_zero : Splits 0 0 := by
  intro data
  simp only [if_true]
  rw [Batch.read_eq_of_length_le le_rfl (by omega : data.length ≤ 1 + data.length),
    Batch.read_add]
  apply Batch.andThen_congr
  exact Batch.read_eq_of_length_le (Batch.length_rest_le 1 data) le_rfl

theorem encodedHeight?_map_append {n : Nat} {data middle rest : List UInt8}
    {front others : List Transaction} (hfront : Batch.read 1 data = ⟨front, middle, none⟩)
    (hothers : Batch.read n middle = ⟨others, rest, none⟩) :
    encodedHeight? header ((front ++ others).map .full) =
      encodedHeight? header (front.map .full) := by
  cases front with
  | nil =>
    obtain rfl : middle = [] := Batch.eq_nil_of_read_succ_eq hfront
    rw [Batch.read_nil] at hothers
    obtain rfl : [] = others := congrArg Batch.transactions hothers
    rfl
  | cons t front =>
    rw [List.map_append]
    exact encodedHeight?_append header (List.cons_ne_nil _ _) _

theorem readBody_eager_iff (hsplits : Splits limit step) :
    (readBody header body (options.eager limit)).result = .ok b ↔
      ∃ first, (readBody header body options.lazy).result = .ok first ∧
        first.ContinuesTo step b ∧ (limit = 0 → b.count = some b.entries.length) := by
  have heager : ∀ length,
      (options.eager limit).bound length = if limit = 0 then length else limit := fun _ => rfl
  have hlazy : ∀ length, options.lazy.bound length = 1 := fun _ => rfl
  simp only [readBody_eq_ok_iff, ContinuesTo, parseTransactions_eq_iff, heager, hlazy, hsplits _,
    Batch.andThen_eq_iff]
  constructor
  · rintro ⟨count, data, _, rest, height, rfl, ⟨front, middle, back, hfront, hback, rfl⟩, hcount,
      hheight, rfl⟩
    rw [encodedHeight?_map_append hfront hback] at hheight
    refine ⟨_, ⟨count, data, front, middle, height, rfl, hfront, nofun, hheight, rfl⟩,
      ⟨back, rest, hback, ?_⟩, ?_⟩
    · rw [List.map_append]
      rfl
    · intro hlimit
      rw [List.length_map]
      exact congrArg some (hcount rfl hlimit)
  · rintro ⟨_, ⟨count, data, front, middle, height, rfl, hfront, -, hheight, rfl⟩,
      ⟨back, rest, hback, rfl⟩, hcount⟩
    refine ⟨count, data, front ++ back, rest, height, rfl,
      ⟨front, middle, back, hfront, hback, rfl⟩, ?_, ?_, ?_⟩
    · intro _ hlimit
      have hlen := Option.some.inj (hcount hlimit)
      rw [hlen, ← List.map_append, List.length_map]
    · rw [encodedHeight?_map_append hfront hback]
      exact hheight
    · rw [List.map_append]
      rfl

theorem read_eager_iff (hraw : Header.size < raw.length) (hsplits : Splits limit step) :
    (read raw (options.eager limit)).result = .ok b ↔
      ∃ first, (read raw options.lazy).result = .ok first ∧
        first.ContinuesTo step b ∧ (limit = 0 → b.count = some b.entries.length) := by
  rw [read_eq_ok_iff hraw]
  constructor
  · rintro ⟨header, body, hbytes, hhash, hbody⟩
    obtain ⟨first, hfirst, hcontinues⟩ := (readBody_eager_iff hsplits).mp hbody
    exact ⟨first, (read_eq_ok_iff hraw).mpr ⟨header, body, hbytes, hhash, hfirst⟩, hcontinues⟩
  · rintro ⟨first, hread, hcontinues⟩
    obtain ⟨header, body, hbytes, hhash, hfirst⟩ := (read_eq_ok_iff hraw).mp hread
    have hbody := (readBody_eager_iff hsplits).mpr ⟨first, hfirst, hcontinues⟩
    exact ⟨header, body, hbytes, hhash, hbody⟩

/-- Reading one transaction at once is lazy reading, down to its errors and events. Reading more of
them, or all, succeeds exactly when lazy reading and one step with the rest of the limit do, with
the same block, and reading all also needs the stated count to be met. -/
theorem eager_iff_lazy_continues {raw : List UInt8} (hraw : Header.size < raw.length)
    (options : ReadOptions) :
    read raw (options.eager 1) = read raw options.lazy ∧
    (∀ limit, 2 ≤ limit → ∀ b, (read raw (options.eager limit)).result = .ok b ↔
      ∃ first, (read raw options.lazy).result = .ok first ∧ first.ContinuesTo (limit - 1) b) ∧
    ∀ b, (read raw (options.eager 0)).result = .ok b ↔
      ∃ first, (read raw options.lazy).result = .ok first ∧ first.ContinuesTo 0 b ∧
        b.count = some b.entries.length := by
  refine ⟨read_eager_one options raw, ?_, ?_⟩
  · intro limit hlimit b
    have hne : limit ≠ 0 := by omega
    simp only [read_eager_iff hraw (splits_of_two_le hlimit), hne, false_implies, and_true]
  · intro b
    simp only [read_eager_iff hraw splits_zero, true_implies]

theorem eager_iff_lazy_continues_of_opened :
    Header.size < (pair ++ [0xff]).length ∧ 2 ≤ 2 ∧
      (read (pair ++ [0xff]) (ReadOptions.eager {} 2)).result =
        .ok { opened with entries := [.full .witnessed, .full .witnessed], pending := [0xff] } := by
  have hraw : Header.size < (pair ++ [0xff]).length := by decide +kernel
  obtain ⟨-, hlimit, -⟩ := eager_iff_lazy_continues hraw {}
  exact ⟨hraw, le_rfl, (hlimit 2 le_rfl _).mpr ⟨opened, rfl, ⟨1, rfl⟩, rfl⟩⟩

end BitcoinBlock.Block
