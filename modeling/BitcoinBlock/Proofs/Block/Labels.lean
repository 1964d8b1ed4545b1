import BitcoinBlock.Proofs.Block.Reading
import BitcoinBlock.Proofs.Wire.Streaming

/-! # Stated hashes, heights and networks

What is stated of a block beforehand has no part in reading it. The hash is compared before anything
else, and the height after everything else. A height that the block does not tell is taken as
stated, and so is the network.
-/
namespace BitcoinBlock.Block

open Wire

variable {header : Header} {body raw data : List UInt8} {options : ReadOptions} {b : Block}
  {known stated : Option UInt32} {n : Nat} {e : Error}

/-- The same reading with nothing stated but a network. -/
def ReadOptions.bare (options : ReadOptions) (network : Network) : ReadOptions :=
  { options with hash := none, height := none, network }

/-- The block with what is stated of it, unless it tells another height. -/
def labelled (options : ReadOptions) (b : Block) : Except Error Block :=
  (settle b.height options.height).map fun height => { b with height, network := options.network }

theorem settle_of_ne {known stated : UInt32} (h : stated ≠ known) :
    settle (some known) (some stated) = .error .heightMismatch := if_neg h

theorem settle_of_agree (h : ∀ s k, stated = some s → known = some k → s = k) :
    settle known stated = .ok (known.or stated) := by
  cases known with
  | none => rfl
  | some k =>
    cases stated with
    | none => rfl
    | some s => exact if_pos (h s k rfl rfl)

theorem labelled_of_ne {known stated : UInt32} (hstated : options.height = some stated)
    (hknown : b.height = some known) (hne : stated ≠ known) :
    labelled options b = .error .heightMismatch := by
  rw [labelled, hstated, hknown, settle_of_ne hne]
  rfl

theorem labelled_of_agree (h : ∀ s k, options.height = some s → b.height = some k → s = k) :
    labelled options b =
      .ok { b with height := b.height.or options.height, network := options.network } := by
  rw [labelled, settle_of_agree h]
  rfl

theorem labelled_pending (pending : List UInt8) (count : Nat) (b : Block) :
    (labelled options b >>= fun b => .ok { b with pending, count := some count }) =
      labelled options { b with pending, count := some count } := by
  rw [labelled, labelled]
  cases settle b.height options.height with
  | ok height => rfl
  | error e => rfl

theorem checkHash_result_of_ne {expected actual : Hash} (h : expected ≠ actual) :
    (checkHash (some expected) actual).result = .error .blockHashMismatch := by
  rw [checkHash, if_neg h]
  rfl

theorem assemble_result_eq_labelled (header : Header) (entries : List Entry)
    (options : ReadOptions) (network : Network) :
    (assemble header entries options.height options.network).result =
      (assemble header entries none network).result >>= labelled options := by
  rw [assemble_result, assemble_result, settle_none]
  rfl

theorem readBody_result_eq_labelled (header : Header) (body : List UInt8) (options : ReadOptions)
    (network : Network) :
    (readBody header body options).result =
      (readBody header body (options.bare network)).result >>= labelled options := by
  have hfront : decodeFront (options.bare network) = decodeFront options := rfl
  have hcount : checkCount (options.bare network) = checkCount options := rfl
  simp only [readBody, Logged.result_bind, Logged.result_ofExcept, Logged.result_log,
    Logged.result_pure, ok_bind, hfront, hcount, bind_assoc,
    assemble_result_eq_labelled header _ options network]
  apply bind_congr
  rintro ⟨count, data⟩
  apply bind_congr
  rintro ⟨ts, pending⟩
  apply bind_congr
  intro _
  apply bind_congr
  intro b
  exact labelled_pending pending count.toNat b

theorem read_append_eq_labelled (header : Header) (body : List UInt8) (options : ReadOptions)
    (network : Network) :
    (read (header.encode ++ body) options).result =
      (checkHash options.hash header.hash).result >>= fun _ =>
        (read (header.encode ++ body) (options.bare network)).result >>= labelled options := by
  have hbare : (checkHash (options.bare network).hash header.hash).result = .ok () := rfl
  rw [read_append_result, read_append_result, hbare, ok_bind]
  apply bind_congr
  intro _
  split
  · exact assemble_result_eq_labelled header [] options network
  · exact readBody_result_eq_labelled header body options network

/-- What can be wrong with a block of which nothing is stated. -/
def bareFaults : List Error := .transactionCountMismatch :: streamFaults

theorem Batch.fault_mem (h : (Batch.read n data).fault = some e) : e ∈ streamFaults := by
  fun_induction Batch.read n data with
  | case1 data => cases h
  | case2 n data hempty => cases h
  | case3 n data hne t rest hdecode ih => exact ih h
  | case4 n data hne other hdecode =>
    cases h
    exact Transaction.streams_decode.fault_mem hdecode

theorem checkHash_fault {expected : Option Hash} {actual : Hash}
    (h : (checkHash expected actual).result = .error e) : e = .blockHashMismatch := by
  cases expected with
  | none => cases h
  | some expected =>
    by_cases hagree : expected = actual
    · rw [checkHash, if_pos hagree] at h
      cases h
    · rw [checkHash_result_of_ne hagree] at h
      exact (Except.error.inj h).symm

theorem checkCount_fault_mem {found count : Nat}
    (h : (checkCount options found count).result = .error e) : e ∈ bareFaults := by
  rw [checkCount] at h
  split at h
  · cases h
    exact List.mem_cons_self
  · cases h

theorem assemble_result_none (header : Header) (entries : List Entry) (network : Network) :
    ∃ b, (assemble header entries none network).result = .ok b := by
  rw [assemble_result, settle_none]
  exact ⟨_, rfl⟩

theorem readBody_bare_fault_mem {network : Network}
    (h : (readBody header body (options.bare network)).result = .error e) : e ∈ bareFaults := by
  simp only [readBody, Logged.result_bind, Logged.result_ofExcept, Logged.result_log, ok_bind] at h
  rcases bind_eq_error_iff.mp h with hcount | ⟨⟨count, data⟩, -, hrest⟩
  · exact List.mem_cons_of_mem _ (CompactSize.streams_decode.fault_mem hcount)
  rcases bind_eq_error_iff.mp hrest with hfront | ⟨⟨ts, pending⟩, -, hchecks⟩
  · rw [decodeFront_eq_outcome, Batch.outcome_eq_error_iff] at hfront
    exact List.mem_cons_of_mem _ (Batch.fault_mem hfront)
  rcases bind_eq_error_iff.mp hchecks with hcheck | ⟨_, -, hlabels⟩
  · exact checkCount_fault_mem hcheck
  · obtain ⟨b, hb⟩ := assemble_result_none header (ts.map .full) network
    change (assemble header (ts.map .full) none network).result >>= _ = _ at hlabels
    rw [hb] at hlabels
    cases hlabels

theorem read_bare_fault_mem {network : Network}
    (h : (read (header.encode ++ body) (options.bare network)).result = .error e) :
    e ∈ bareFaults := by
  have hbare : (checkHash (options.bare network).hash header.hash).result = .ok () := rfl
  rw [read_append_result, hbare, ok_bind] at h
  split at h
  · obtain ⟨b, hb⟩ := assemble_result_none header [] network
    cases hb.symm.trans h
  · exact readBody_bare_fault_mem h

theorem read_result_ne_heightMismatch (hheight : options.height = none) :
    (read (header.encode ++ body) options).result ≠ .error .heightMismatch := by
  intro h
  rw [read_append_eq_labelled header body options options.network] at h
  rcases bind_eq_error_iff.mp h with hhash | ⟨_, -, hrest⟩
  · cases checkHash_fault hhash
  rcases bind_eq_error_iff.mp hrest with hbare | ⟨b, -, hlabels⟩
  · exact absurd (read_bare_fault_mem hbare) (by decide)
  · rw [labelled, hheight, settle_none] at hlabels
    cases hlabels

/-- A stated hash, height and network are checks and labels of what is read without them. A wrong
hash comes before all other faults and a wrong height after them, and a height that the block does
not tell is filled in. No height is wrong if none is stated. -/
theorem read_result_of_bare (hraw : Header.size ≤ raw.length) (options : ReadOptions)
    (network : Network) :
    (∀ expected, options.hash = some expected → expected ≠ doubleHash (raw.take Header.size) →
      (read raw options).result = .error .blockHashMismatch) ∧
    ((∀ expected, options.hash = some expected → expected = doubleHash (raw.take Header.size)) →
      (∀ e, (read raw (options.bare network)).result = .error e →
        (read raw options).result = .error e) ∧
      ∀ b, (read raw (options.bare network)).result = .ok b →
        (∀ stated known, options.height = some stated → b.height = some known → stated ≠ known →
          (read raw options).result = .error .heightMismatch) ∧
        ((∀ stated known, options.height = some stated → b.height = some known → stated = known) →
          (read raw options).result = .ok { b with
            height := b.height.or options.height
            network := options.network })) ∧
    (options.height = none → (read raw options).result ≠ .error .heightMismatch) := by
  obtain ⟨header, hheader⟩ := Header.exists_encode_eq (List.length_take_of_le hraw)
  obtain ⟨body, rfl⟩ : ∃ body, raw = header.encode ++ body :=
    ⟨raw.drop Header.size, by rw [hheader, List.take_append_drop]⟩
  have hhash : doubleHash ((header.encode ++ body).take Header.size) = header.hash := by
    rw [← hheader]
    rfl
  have hread := read_append_eq_labelled header body options network
  rw [hhash]
  refine ⟨?_, ?_, read_result_ne_heightMismatch⟩
  · intro expected hexpected hne
    rw [hread, hexpected, checkHash_result_of_ne hne, error_bind]
  · intro hagree
    have hcheck : (checkHash options.hash header.hash).result = .ok () :=
      checkHash_result_eq_ok_iff.mpr hagree
    rw [hcheck, ok_bind] at hread
    constructor
    · intro e herror
      rw [hread, herror, error_bind]
    · intro b hb
      rw [hread, hb, ok_bind]
      exact ⟨fun _ _ => labelled_of_ne, labelled_of_agree⟩

/-- A header of version 2 and a transaction that starts with a height of 1. -/
def dated : List UInt8 :=
  Header.encode { version := 2 } ++ (Codec.list Codec.transaction).encode [.witnessed]

def datedBlock : Block where
  header := { version := 2 }
  entries := [.full .witnessed]
  count := some 1
  height := some 1
  network := .bitcoin

/-- A wrong hash, a wrong and a right height for a block that tells it, a height for a block that
does not, and a wrong height for a block with a faulty transaction behind it. -/
theorem read_result_of_bare_dated_and_pair :
    Header.size ≤ dated.length ∧ Header.size ≤ pair.length ∧
      (read dated { hash := some Hash.zero, height := some 2 }).result =
        .error .blockHashMismatch ∧
      (read dated { height := some 2 }).result = .error .heightMismatch ∧
      (read dated { height := some 1, network := .testnet }).result =
        .ok { datedBlock with network := .testnet } ∧
      (read pair { height := some 7 }).result =
        .ok { opened with pending := Transaction.witnessed.encode, height := some 7 } ∧
      (read (dated ++ [0]) { height := some 2, allTransactions := true, limit := 2 }).result =
        .error .endOfData := by
  have hdated : Header.size ≤ dated.length := by decide +kernel
  have hpair : Header.size ≤ pair.length := by decide +kernel
  have hlonger : Header.size ≤ (dated ++ [0]).length := by decide +kernel
  have hbare : (read dated {}).result = .ok datedBlock := rfl
  have hundated : (read pair {}).result =
      .ok { opened with pending := Transaction.witnessed.encode } := rfl
  obtain ⟨hhash, -, -⟩ :=
    read_result_of_bare hdated { hash := some Hash.zero, height := some 2 } .bitcoin
  obtain ⟨-, hwrong, -⟩ := read_result_of_bare hdated { height := some 2 } .bitcoin
  obtain ⟨-, hright, -⟩ :=
    read_result_of_bare hdated { height := some 1, network := .testnet } .bitcoin
  obtain ⟨-, hfilled, -⟩ := read_result_of_bare hpair { height := some 7 } .bitcoin
  obtain ⟨-, hfault, -⟩ :=
    read_result_of_bare hlonger { height := some 2, allTransactions := true, limit := 2 } .bitcoin
  refine ⟨hdated, hpair, hhash _ rfl (by decide +kernel), ?_, ?_, ?_, ?_⟩
  · exact ((hwrong nofun).2 datedBlock hbare).1 2 1 rfl rfl (by decide)
  · exact ((hright nofun).2 datedBlock hbare).2 (by simp [datedBlock])
  · exact ((hfilled nofun).2 _ hundated).2 (by simp [opened])
  · exact (hfault nofun).1 .endOfData rfl

end BitcoinBlock.Block
