import BitcoinBlock.Block.Reading
import BitcoinBlock.Proofs.Transaction.RoundTrip

/-! # Runs of transactions

A batch splits its data without loss, can be cut into smaller batches anywhere, and depends on its
limit only while there are fewer transactions to come than the limit allows. Both ways of reading a
block are batches with different limits.
-/
namespace BitcoinBlock.Block

open Wire

namespace Batch

variable {m n : Nat} {data rest : List UInt8} {t : Transaction} {e : Error}

/-- Goes on behind a batch, unless a fault has stopped it. -/
def andThen (first : Batch) (next : List UInt8 → Batch) : Batch :=
  match first.fault with
  | none => { next first.rest with
      transactions := first.transactions ++ (next first.rest).transactions }
  | some _ => first

@[simp] theorem read_nil (n : Nat) : read n [] = ⟨[], [], none⟩ := by
  cases n <;> rfl

theorem ne_nil_of_decode_eq_ok (h : Transaction.decode data = .ok (t, rest)) : data ≠ [] := by
  rintro rfl
  have hlen := congrArg List.length (Transaction.decode_eq_ok_iff.mp h).2
  have hpos := t.encode_length_pos
  rw [List.length_append, List.length_nil] at hlen
  omega

theorem length_lt_of_decode_eq_ok (h : Transaction.decode data = .ok (t, rest)) :
    rest.length < data.length := by
  have hpos := t.encode_length_pos
  rw [(Transaction.decode_eq_ok_iff.mp h).2, List.length_append]
  omega

theorem read_succ_of_ok (h : Transaction.decode data = .ok (t, rest)) :
    read (n + 1) data = cons t (read n rest) := by
  rw [read, if_neg (by simpa using ne_nil_of_decode_eq_ok h), h]

theorem read_succ_of_error (hdata : data ≠ []) (h : Transaction.decode data = .error e) :
    read (n + 1) data = ⟨[], data, some e⟩ := by
  rw [read, if_neg (by simpa using hdata), h]

/-- Nothing is lost: the bytes of what was read stand in front of the rest. -/
theorem flatMap_encode_append_rest (n : Nat) (data : List UInt8) :
    (read n data).transactions.flatMap Transaction.encode ++ (read n data).rest = data := by
  fun_induction read n data with
  | case1 data => rfl
  | case2 n data hempty => rfl
  | case3 n data hne t rest hdecode ih =>
    rw [(Transaction.decode_eq_ok_iff.mp hdecode).2]
    simp only [cons, List.flatMap_cons, List.append_assoc, ih]
  | case4 n data hne e hdecode => rfl

theorem length_rest_le (n : Nat) (data : List UInt8) : (read n data).rest.length ≤ data.length := by
  have hlen := congrArg List.length (flatMap_encode_append_rest n data)
  rw [List.length_append] at hlen
  omega

theorem readable_of_mem (n : Nat) (data : List UInt8) :
    ∀ t ∈ (read n data).transactions, t.Sized ∧ t.Readable := by
  fun_induction read n data with
  | case1 data => simp
  | case2 n data hempty => simp
  | case3 n data hne t rest hdecode ih =>
    exact List.forall_mem_cons.mpr ⟨(Transaction.decode_eq_ok_iff.mp hdecode).1, ih⟩
  | case4 n data hne e hdecode => simp

theorem cons_andThen (t : Transaction) (first : Batch) (next : List UInt8 → Batch) :
    (cons t first).andThen next = cons t (first.andThen next) := by
  rcases first with ⟨transactions, rest, _ | fault⟩ <;> rfl

/-- A batch that goes on behind another one is without fault when both of them are. -/
theorem andThen_eq_iff {first : Batch} {next : List UInt8 → Batch} {ts : List Transaction} :
    first.andThen next = ⟨ts, rest, none⟩ ↔
      ∃ front middle back, first = ⟨front, middle, none⟩ ∧ next middle = ⟨back, rest, none⟩ ∧
        ts = front ++ back := by
  rcases first with ⟨front, middle, _ | e⟩
  · simp only [andThen, mk.injEq]
    constructor
    · rintro ⟨rfl, rfl, hfault⟩
      exact ⟨front, middle, _, ⟨rfl, rfl, trivial⟩, by rw [← hfault], rfl⟩
    · rintro ⟨_, _, back, ⟨rfl, rfl, -⟩, hnext, rfl⟩
      rw [hnext]
      exact ⟨rfl, rfl, rfl⟩
  · simp [andThen]

theorem andThen_congr {first : Batch} {f g : List UInt8 → Batch}
    (h : f first.rest = g first.rest) : first.andThen f = first.andThen g := by
  simp only [andThen, h]

theorem read_add (m n : Nat) (data : List UInt8) :
    read (m + n) data = (read m data).andThen (read n) := by
  fun_induction read m data with
  | case1 data => simp [andThen]
  | case2 m data hempty =>
    rw [List.isEmpty_iff.mp hempty]
    simp [andThen]
  | case3 m data hne t rest hdecode ih =>
    rw [Nat.succ_add, read_succ_of_ok hdecode, cons_andThen, ih]
  | case4 m data hne e hdecode =>
    rw [Nat.succ_add, read_succ_of_error (by simpa using hne) hdecode]
    rfl

/-- A limit that the data cannot exhaust is no limit. -/
theorem read_eq_of_length_le (hm : data.length ≤ m) (hn : data.length ≤ n) :
    read m data = read n data := by
  induction m generalizing n data with
  | zero =>
    rw [List.eq_nil_of_length_eq_zero (Nat.le_zero.mp hm), read_nil, read_nil]
  | succ m ih =>
    by_cases hdata : data = []
    · rw [hdata, read_nil, read_nil]
    · obtain ⟨k, rfl⟩ : ∃ k, n = k + 1 :=
        Nat.exists_eq_succ_of_ne_zero
          (Nat.ne_of_gt ((List.length_pos_iff.mpr hdata).trans_le hn))
      cases hdecode : Transaction.decode data with
      | error e => rw [read_succ_of_error hdata hdecode, read_succ_of_error hdata hdecode]
      | ok result =>
        obtain ⟨t, rest⟩ := result
        have hlen := length_lt_of_decode_eq_ok hdecode
        rw [read_succ_of_ok hdecode, read_succ_of_ok hdecode,
          ih (by omega : rest.length ≤ m) (by omega : rest.length ≤ k)]

theorem rest_eq_nil_of_length_le (hn : data.length ≤ n) (hfault : (read n data).fault = none) :
    (read n data).rest = [] := by
  fun_induction read n data with
  | case1 data => exact List.eq_nil_of_length_eq_zero (Nat.le_zero.mp hn)
  | case2 n data hempty => exact List.isEmpty_iff.mp hempty
  | case3 n data hne t rest hdecode ih =>
    have hlen := length_lt_of_decode_eq_ok hdecode
    exact ih (by omega) hfault
  | case4 n data hne e hdecode => simp at hfault

theorem eq_nil_of_read_succ_eq (h : read (n + 1) data = ⟨[], rest, none⟩) : rest = [] := by
  by_cases hdata : data = []
  · rw [hdata, read_nil] at h
    exact (congrArg Batch.rest h).symm
  · cases hdecode : Transaction.decode data with
    | error e =>
      rw [read_succ_of_error hdata hdecode] at h
      cases congrArg Batch.fault h
    | ok result =>
      rw [read_succ_of_ok hdecode] at h
      cases congrArg Batch.transactions h

theorem read_flatMap_encode {ts : List Transaction} (hts : ∀ t ∈ ts, t.Sized ∧ t.Readable)
    (hn : ts.length ≤ n) : read n (ts.flatMap Transaction.encode) = ⟨ts, [], none⟩ := by
  induction ts generalizing n with
  | nil => exact read_nil n
  | cons t others ih =>
    obtain ⟨ht, hothers⟩ := List.forall_mem_cons.mp hts
    obtain ⟨k, rfl⟩ : ∃ k, n = k + 1 :=
      Nat.exists_eq_succ_of_ne_zero (Nat.ne_of_gt (Nat.succ_pos _ |>.trans_le hn))
    have hdecode : Transaction.decode ((t :: others).flatMap Transaction.encode) =
        .ok (t, others.flatMap Transaction.encode) :=
      Transaction.decode_eq_ok_iff.mpr ⟨ht, List.flatMap_cons⟩
    rw [read_succ_of_ok hdecode, ih hothers (Nat.le_of_succ_le_succ hn)]
    rfl

/-- The outcome for a reader to whom a fault is fatal. -/
def outcome (batch : Batch) : Except Error (List Transaction × List UInt8) :=
  match batch.fault with
  | none => .ok (batch.transactions, batch.rest)
  | some e => .error e

theorem outcome_eq_ok_iff {batch : Batch} {ts : List Transaction} :
    batch.outcome = .ok (ts, rest) ↔ batch = ⟨ts, rest, none⟩ := by
  rcases batch with ⟨transactions, left, _ | e⟩ <;> simp [outcome]

theorem outcome_eq_error_iff {batch : Batch} :
    batch.outcome = .error e ↔ batch.fault = some e := by
  rcases batch with ⟨transactions, left, _ | other⟩ <;> simp [outcome]

theorem outcome_cons (t : Transaction) (batch : Batch) :
    (cons t batch).outcome = batch.outcome.map fun p => (t :: p.1, p.2) := by
  rcases batch with ⟨transactions, rest, _ | e⟩ <;> rfl

end Batch

theorem decodeUpTo_succ {n : Nat} {data : List UInt8} (hdata : data ≠ []) :
    decodeUpTo (n + 1) data = Transaction.decode data >>= fun p =>
      (decodeUpTo n p.2).map fun q => (p.1 :: q.1, q.2) := by
  rw [decodeUpTo]
  simp only [Decoder.bind_apply, Decoder.get_apply, ok_bind, Decoder.ite_apply, Decoder.pure_apply,
    List.isEmpty_iff, hdata, if_false]
  rfl

theorem decodeUpTo_eq_outcome (n : Nat) (data : List UInt8) :
    decodeUpTo n data = (Batch.read n data).outcome := by
  fun_induction Batch.read n data with
  | case1 data => rfl
  | case2 n data hempty =>
    rw [List.isEmpty_iff.mp hempty]
    rfl
  | case3 n data hne t rest hdecode ih =>
    rw [decodeUpTo_succ (by simpa using hne), hdecode, ok_bind, Batch.outcome_cons, ih]
  | case4 n data hne e hdecode =>
    rw [decodeUpTo_succ (by simpa using hne), hdecode]
    rfl

/-- How many transactions reading takes from data of the given length. -/
def ReadOptions.bound (options : ReadOptions) (length : Nat) : Nat :=
  if options.allTransactions then if options.limit = 0 then length else options.limit else 1

theorem ReadOptions.exists_bound_eq_succ (options : ReadOptions) {data : List UInt8}
    (hdata : data ≠ []) : ∃ n, options.bound data.length = n + 1 := by
  have hpos : 0 < data.length := List.length_pos_iff.mpr hdata
  apply Nat.exists_eq_succ_of_ne_zero
  rw [ReadOptions.bound]
  split_ifs <;> omega

theorem ReadOptions.bound_of_all {options : ReadOptions} (hall : options.allTransactions = true)
    (hlimit : options.limit = 0) (length : Nat) : options.bound length = length := by
  rw [bound, if_pos hall, if_pos hlimit]

/-- How many are left to take behind the coinbase. -/
theorem decodeFront_of_ne_nil (options : ReadOptions) {data : List UInt8} (hdata : data ≠ []) :
    decodeFront options data = Transaction.decode data >>= fun p =>
      if options.allTransactions then
        (decodeUpTo (if options.limit = 0 then p.2.length else options.limit - 1) p.2).map
          fun q => (p.1 :: q.1, q.2)
      else .ok ([p.1], p.2) := by
  rw [decodeFront]
  simp only [Decoder.bind_apply, Decoder.get_apply, ok_bind, Decoder.ite_apply, Decoder.pure_apply,
    List.isEmpty_iff, hdata, if_false]
  cases options.allTransactions <;> rfl

theorem decodeFront_eq_outcome (options : ReadOptions) (data : List UInt8) :
    decodeFront options data = (Batch.read (options.bound data.length) data).outcome := by
  by_cases hdata : data = []
  · rw [hdata, Batch.read_nil]
    rfl
  · obtain ⟨n, hn⟩ := options.exists_bound_eq_succ hdata
    rw [decodeFront_of_ne_nil options hdata, hn]
    cases hdecode : Transaction.decode data with
    | error e =>
      rw [Batch.read_succ_of_error hdata hdecode]
      rfl
    | ok result =>
      obtain ⟨t, rest⟩ := result
      have hlen := Batch.length_lt_of_decode_eq_ok hdecode
      rw [Batch.read_succ_of_ok hdecode, Batch.outcome_cons, ok_bind, decodeUpTo_eq_outcome]
      rw [ReadOptions.bound] at hn
      split_ifs at hn ⊢ with hall hlimit
      · rw [Batch.read_eq_of_length_le le_rfl (by omega : rest.length ≤ n)]
      · rw [show options.limit - 1 = n by omega]
      · rw [show n = 0 by omega]
        rfl

theorem parseTransactions_eq_iff {b next : Block} {limit : Nat} :
    ((∃ n, (b.parseTransactions limit).2.result = .ok n) ∧ (b.parseTransactions limit).1 = next) ↔
      ∃ ts rest,
        Batch.read (if limit = 0 then b.pending.length else limit) b.pending = ⟨ts, rest, none⟩ ∧
        next = { b with entries := b.entries ++ ts.map .full, pending := rest } := by
  simp only [parseTransactions]
  rcases Batch.read (if limit = 0 then b.pending.length else limit) b.pending with ⟨ts, rest, _ | e⟩
  · simp [Batch.result, eq_comm]
  · simp [Batch.result]

end BitcoinBlock.Block
