import BitcoinBlock.Proofs.CommandLine.Arguments

/-! # What command lines ask for

A command line is read in two places: the options in front of the name of a subcommand, and what
stands behind it. So the name of the subcommand can be changed without a change to the rest of what
is asked.
-/
namespace BitcoinBlock.CommandLine

variable {names : List OptionName} {g g' outer inner : Given} {name : String}
  {arguments front rest : List String} {invocation : Invocation}

/-- What the two places around the name of a subcommand give. -/
structure Places (front : List String) (outer : Given) (name : String) (rest : List String)
    (inner : Given) : Prop where
  isValue_name : isValue name = true
  name_ne_help : name ≠ "help"
  reads_front : Reads true OptionName.general {} front outer
  scans_rest : ∃ own, subcommandOptions? name = some own ∧
    Scans false (OptionName.general ++ own) {} rest (.finished inner)

/-- The options of the inner place win over those of the outer one. -/
def invocation? (outer : Given) (name : String) (inner : Given) : Option Invocation :=
  (subcommand? name inner).map fun subcommand =>
    { config := inner.config <|> outer.config
      network := inner.network <|> outer.network
      json := inner.json || outer.json
      subcommand }

theorem option?_append {own : List OptionName} {inPlace : Bool} {option : OptionName}
    (h : option? inPlace names name = some option) :
    option? inPlace (names ++ own) name = some option := by
  obtain ⟨hhelp, hversion, hfind⟩ := option?_eq_some_iff.mp h
  refine option?_eq_some_iff.mpr ⟨hhelp, hversion, ?_⟩
  rw [List.find?_append, hfind]
  rfl

theorem helpFor?_ne_run (arguments : List String) :
    helpFor? arguments ≠ some (.run invocation) := by
  unfold helpFor?
  split
  · simp
  · split <;> simp
  · simp

theorem scans_subcommand_iff :
    Scans true names g arguments (.subcommand g' name rest) ↔
      ∃ front, arguments = front ++ name :: rest ∧ isValue name = true ∧
        Reads true names g front g' := by
  constructor
  · rintro ⟨front, _, _, rfl, hreads, hends⟩
    cases hends with
    | subcommand _ hname => exact ⟨front, rfl, hname, hreads⟩
  · rintro ⟨front, rfl, hname, hreads⟩
    exact ⟨front, name :: rest, g', rfl, hreads, .subcommand rfl hname⟩

theorem Places.ofArguments_eq (h : Places front outer name rest inner)
    (hinvocation : invocation? outer name inner = some invocation) :
    Request.ofArguments (front ++ name :: rest) = some (.run invocation) := by
  obtain ⟨own, hown, hscans⟩ := h.scans_rest
  obtain ⟨subcommand, hsubcommand, rfl⟩ := Option.map_eq_some_iff.mp hinvocation
  have houter : scan true OptionName.general {} (front ++ name :: rest) =
      some (.subcommand outer name rest) :=
    (scan_eq_some_iff (by simp) (by simp)).mpr
      (scans_subcommand_iff.mpr ⟨front, rfl, h.isValue_name, h.reads_front⟩)
  have hinner : scan false (OptionName.general ++ own) {} rest = some (.finished inner) :=
    (scan_eq_some_iff (by simp) (by simp)).mpr hscans
  simp [Request.ofArguments, houter, h.name_ne_help, hown, hinner, hsubcommand]

theorem exists_places_of_ofArguments
    (h : Request.ofArguments arguments = some (.run invocation)) :
    ∃ front outer name rest inner, arguments = front ++ name :: rest ∧
      Places front outer name rest inner ∧ invocation? outer name inner = some invocation := by
  obtain ⟨first, hfirst, hread⟩ := Option.bind_eq_some_iff.mp h
  cases first with
  | help => simp at hread
  | version => simp at hread
  | finished g => simp at hread
  | subcommand outer name rest =>
    obtain ⟨front, rfl, hname, hreads⟩ :=
      scans_subcommand_iff.mp ((scan_eq_some_iff (by simp) (by simp)).mp hfirst)
    by_cases hhelp : name = "help"
    · subst hhelp
      exact absurd hread (helpFor?_ne_run rest)
    · simp only [if_neg hhelp] at hread
      obtain ⟨own, hown, hrest⟩ := Option.bind_eq_some_iff.mp hread
      obtain ⟨second, hsecond, hask⟩ := Option.bind_eq_some_iff.mp hrest
      cases second with
      | help => simp at hask
      | version => simp at hask
      | subcommand => simp at hask
      | finished inner =>
        have hscans := (scan_eq_some_iff (by simp) (by simp)).mp hsecond
        refine ⟨front, outer, name, rest, inner, rfl, ⟨hname, hhelp, hreads, own, hown, hscans⟩, ?_⟩
        obtain ⟨subcommand, hsubcommand, hinvocation⟩ := Option.bind_eq_some_iff.mp hask
        cases hinvocation
        rw [invocation?, hsubcommand]
        rfl

/-! ## A header read as a block -/

/-- The general options and the operands alone, with how many transactions to read. -/
def Given.reading (g : Given) (all : Bool) (limit : Option Nat) : Given where
  config := g.config
  network := g.network
  json := g.json
  operands := g.operands
  parseTransactions := all
  limit := limit

/-- The arguments that say how many transactions to read. -/
def readingOptions (all : Bool) (limit : Option String) : List String :=
  (if all then ["--parse-transactions"] else []) ++ limit.elim [] (["--limit", ·])

theorem Given.set_reading (g : Given) (all : Bool) (limit : Option Nat) {option : OptionName}
    (hoption : option ∈ OptionName.general) (value : String) :
    (g.reading all limit).set option value = (g.set option value).map (reading · all limit) := by
  simp only [OptionName.general, List.mem_cons, List.not_mem_nil, or_false] at hoption
  rcases hoption with rfl | rfl | rfl
  · simp only [set, Option.bind_eq_bind, Option.map_bind]
    rfl
  · simp only [set, Option.bind_eq_bind, Option.map_bind]
    rfl
  · rfl

theorem Given.raise_reading (g : Given) (all : Bool) (limit : Option Nat) {option : OptionName}
    (hoption : option ∈ OptionName.general) :
    (g.reading all limit).raise option = (g.raise option).map (reading · all limit) := by
  simp only [OptionName.general, List.mem_cons, List.not_mem_nil, or_false] at hoption
  rcases hoption with rfl | rfl | rfl
  · rfl
  · rfl
  · cases hjson : g.json <;> simp [raise, reading, hjson]

theorem Scans.reading {own : List OptionName} (all : Bool) (limit : Option Nat)
    (h : Scans false OptionName.general g rest (.finished inner)) :
    Scans false (OptionName.general ++ own) (g.reading all limit) rest
      (.finished (inner.reading all limit)) := by
  obtain ⟨inner', hscans, rfl⟩ := h.simulate (R := fun g h => h = g.reading all limit)
    option?_append
    (by
      rintro g _ g' option value hoption rfl hset
      exact ⟨_, by rw [Given.set_reading g all limit hoption, hset, Option.map_some], rfl⟩)
    (by
      rintro g _ g' option hoption rfl hraise
      exact ⟨_, by rw [Given.raise_reading g all limit hoption, hraise, Option.map_some], rfl⟩)
    (by
      rintro g _ texts rfl
      rfl)
    rfl
  exact hscans

def decodeOptions : List OptionName := [.file, .parseTransactions, .limit, .blockHash, .height]

theorem isValue_of_limit? {number : String} {n : Nat} (h : Given.limit? number = some n) :
    isValue number = true := by
  apply isValue_of_head?_ne
  intro hhead
  obtain ⟨digits, hdigits⟩ := List.head?_eq_some_iff.mp hhead
  rw [Given.limit?, hdigits] at h
  have hminus : Text.Numeral.digit? 10 '-' = none := by decide
  simp [Text.Numeral.unsigned, Text.Numeral.extend, hminus, Except.toOption] at h

theorem takes_parseTransactions (hnone : g.parseTransactions = false) :
    Takes false (OptionName.general ++ decodeOptions) g ["--parse-transactions"]
      { g with parseTransactions := true } := by
  have hoption : option? false (OptionName.general ++ decodeOptions) "parse-transactions" =
      some .parseTransactions := rfl
  exact .raised rfl hoption rfl (by simp [Given.raise, hnone])

theorem takes_limit (hnone : g.limit = none) {number : String} {n : Nat}
    (hnumber : Given.limit? number = some n) :
    Takes false (OptionName.general ++ decodeOptions) g ["--limit", number]
      { g with limit := some n } := by
  have hoption : option? false (OptionName.general ++ decodeOptions) "limit" = some .limit := rfl
  exact .apart rfl hoption rfl (isValue_of_limit? hnumber)
    (by simp [Given.set, Given.fresh, hnone, hnumber])

theorem reads_readingOptions (all : Bool) {limit : Option String}
    (hlimit : ∀ number ∈ limit, (Given.limit? number).isSome = true) :
    Reads false (OptionName.general ++ decodeOptions) {} (readingOptions all limit)
      (Given.reading {} all (limit.bind Given.limit?)) := by
  cases limit with
  | none =>
    cases all with
    | false => exact .none _
    | true => exact .option (takes_parseTransactions rfl) (.none _)
  | some number =>
    obtain ⟨n, hn⟩ := Option.isSome_iff_exists.mp (hlimit number rfl)
    rw [Option.bind_some, hn]
    cases all with
    | false =>
      change Reads _ _ _ (["--limit", number] ++ []) _
      exact .option (takes_limit rfl hn) (.none _)
    | true => exact .option (takes_parseTransactions rfl) (.option (takes_limit rfl hn) (.none _))

theorem Places.decode_of_header (h : Places front outer "header" rest inner) (all : Bool)
    {limit : Option String} (hlimit : ∀ number ∈ limit, (Given.limit? number).isSome = true) :
    Places front outer "decode" (readingOptions all limit ++ rest)
      (inner.reading all (limit.bind Given.limit?)) where
  isValue_name := rfl
  name_ne_help := by decide
  reads_front := h.reads_front
  scans_rest := by
    obtain ⟨own, hown, hscans⟩ := h.scans_rest
    cases hown
    rw [List.append_nil] at hscans
    have hreads := reads_readingOptions all hlimit
    exact ⟨decodeOptions, rfl, hreads.scans_append (hscans.reading all _)⟩

theorem eq_of_subcommand?_eq_header {hex : String}
    (h : subcommand? name inner = some (.header hex)) :
    name = "header" ∧ inner.operands = [hex] := by
  unfold subcommand? at h
  split at h
  next => simp [Option.bind_eq_some_iff] at h
  next hoperands =>
    cases h
    exact ⟨rfl, hoperands⟩
  next => simp [Option.bind_eq_some_iff] at h
  next => simp [Option.bind_eq_some_iff] at h
  next => cases h

/-- Where a command line asks for a header, another one asks for the same text as a block, with any
number of transactions to read. -/
theorem ofArguments_decode_of_header {config : Option String} {network : Option Network}
    {json : Bool} {hex : String}
    (h : Request.ofArguments arguments = some (.run ⟨config, network, json, .header hex⟩)) :
    ∃ front rest, arguments = front ++ "header" :: rest ∧ ∀ (all : Bool) (limit : Option String),
      (∀ number ∈ limit, (Given.limit? number).isSome = true) →
      Request.ofArguments (front ++ "decode" :: (readingOptions all limit ++ rest)) =
        some (.run ⟨config, network, json,
          .decode ⟨.text hex, all, (limit.bind Given.limit?).getD 0, none, none⟩⟩) := by
  obtain ⟨front, outer, name, rest, inner, rfl, hplaces, hinvocation⟩ :=
    exists_places_of_ofArguments h
  obtain ⟨subcommand, hsubcommand, hparts⟩ := Option.map_eq_some_iff.mp hinvocation
  cases hparts
  obtain ⟨rfl, hoperands⟩ := eq_of_subcommand?_eq_header hsubcommand
  refine ⟨front, rest, rfl, fun all limit hlimit => ?_⟩
  refine (hplaces.decode_of_header all hlimit).ofArguments_eq ?_
  simp [invocation?, subcommand?, source?, Given.reading, hoperands]

end BitcoinBlock.CommandLine
