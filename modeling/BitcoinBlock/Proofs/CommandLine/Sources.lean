import BitcoinBlock.Proofs.CommandLine.BlockText
import BitcoinBlock.Proofs.CommandLine.Requests

/-! # Where a block comes from

A block is given as a text among the arguments, as a file that holds such a text, or as a file that
holds its bytes. Exchanging one for another changes nothing else that is asked, so the command does
the same for all three, unless the bytes of the block are themselves such a text.
-/
namespace BitcoinBlock.CommandLine

variable {s : Surroundings} {g g' h : Given} {path : String} {source : Source}
  {front rest : List String} {invocation : Invocation}

namespace Source

/-- The arguments that give a block. -/
def arguments : Source → List String
  | text hex => [hex]
  | file path => ["--file", path]

/-- Whether a source can be given by arguments of its own. -/
def Sayable : Source → Prop
  | text hex => isValue hex = true
  | file path => isValue path = true ∧ path ≠ ""

def operands : Source → List String
  | text hex => [hex]
  | file _ => []

def path? : Source → Option String
  | text _ => none
  | file path => some path

end Source

/-! ## Exchanging the source -/

/-- Something given with a file, and the same with another source at its place. -/
structure Exchanged (path : String) (source : Source) (g h : Given) : Prop where
  file_eq : g.file = some path
  exists_eq : ∃ before behind, g.operands = before ++ behind ∧
    h = { g with file := source.path?, operands := before ++ source.operands ++ behind }

/-- A file is given once, so only other options can follow, and these work the same. -/
theorem Exchanged.set {option : OptionName} {value : String} (hrel : Exchanged path source g h)
    (hset : g.set option value = some g') :
    ∃ h', h.set option value = some h' ∧ Exchanged path source g' h' := by
  obtain ⟨hfile, before, behind, hoperands, rfl⟩ := hrel
  cases option with
  | file => simp [Given.set, Given.fresh, hfile] at hset
  | json => cases hset
  | parseTransactions => cases hset
  | config | network | limit | blockHash | height =>
    obtain ⟨new, hnew, hg⟩ := Option.bind_eq_some_iff.mp hset
    cases hg
    exact ⟨_, Option.bind_eq_some_iff.mpr ⟨new, hnew, rfl⟩, hfile, before, behind, hoperands, rfl⟩

theorem Exchanged.raise {option : OptionName} (hrel : Exchanged path source g h)
    (hraise : g.raise option = some g') :
    ∃ h', h.raise option = some h' ∧ Exchanged path source g' h' := by
  obtain ⟨hfile, before, behind, hoperands, rfl⟩ := hrel
  cases option with
  | json | parseTransactions =>
    simp only [Given.raise, Option.ite_none_left_eq_some, Option.some.injEq] at hraise ⊢
    obtain ⟨hnew, rfl⟩ := hraise
    exact ⟨_, ⟨hnew, rfl⟩, hfile, before, behind, hoperands, rfl⟩
  | _ => cases hraise

theorem Exchanged.addOperands (texts : List String) (hrel : Exchanged path source g h) :
    Exchanged path source (g.addOperands texts) (h.addOperands texts) := by
  obtain ⟨hfile, before, behind, hoperands, rfl⟩ := hrel
  refine ⟨hfile, before, behind ++ texts, ?_, ?_⟩
  · rw [Given.addOperands, hoperands, List.append_assoc]
  · simp only [Given.addOperands, List.append_assoc]

theorem Exchanged.scans {names : List OptionName} (hrel : Exchanged path source g h)
    (hscans : Scans false names g rest (.finished g')) :
    ∃ h', Scans false names h rest (.finished h') ∧ Exchanged path source g' h' :=
  hscans.simulate id (fun _ => Exchanged.set) (fun _ => Exchanged.raise) Exchanged.addOperands hrel

theorem reads_arguments (path : String) (hsource : source.Sayable) (hfile : g.file = none) :
    ∃ h, Reads false (OptionName.general ++ decodeOptions) g source.arguments h ∧
      Exchanged path source { g with file := some path } h := by
  cases source with
  | text hex =>
    refine ⟨g.addOperands [hex], .operand rfl hsource (.none _), rfl, g.operands, [],
      (List.append_nil _).symm, ?_⟩
    simp [Given.addOperands, Source.path?, Source.operands, hfile]
  | file other =>
    have hoption : option? false (OptionName.general ++ decodeOptions) "file" = some .file := rfl
    have hset : g.set .file other = some { g with file := some other } := by
      simp [Given.set, Given.fresh, Given.path?, hfile, hsource.2]
    refine ⟨{ g with file := some other }, ?_, rfl, g.operands, [], (List.append_nil _).symm, ?_⟩
    · change Reads _ _ _ (["--file", other] ++ []) _
      exact .option (.apart rfl hoption rfl hsource.1 hset) (.none _)
    · simp [Source.path?, Source.operands]

/-! ## Where a file is given -/

theorem option?_file {outer : Bool} {names : List OptionName} {option : OptionName}
    (h : option? outer names "file" = some option) : option = .file := by
  have htext := List.find?_some (option?_eq_some_iff.mp h).2.2
  revert htext
  cases option <;> decide

theorem ofText_file : Argument.ofText "--file" = .long "file" none := rfl

theorem isValue_file : isValue "--file" = false := rfl

section Given

variable {outer : Bool} {names : List OptionName} {result : Scan}

theorem Takes.file_cons (h : Takes outer names g ("--file" :: rest) g') :
    ∃ path, rest = [path] ∧ .file ∈ names ∧ isValue path = true ∧
      g.set .file path = some g' := by
  cases h with
  | joined hform =>
    rw [ofText_file] at hform
    cases hform
  | apart hform hoption _ hvalue hset =>
    rw [ofText_file] at hform
    cases hform
    obtain rfl := option?_file hoption
    exact ⟨_, rfl, mem_of_option? hoption, hvalue, hset⟩
  | raised hform hoption htakes =>
    rw [ofText_file] at hform
    cases hform
    obtain rfl := option?_file hoption
    cases htakes

theorem Reads.file_cons (h : Reads outer names g ("--file" :: rest) g') :
    ∃ path more g₁, rest = path :: more ∧ .file ∈ names ∧ isValue path = true ∧
      g.set .file path = some g₁ ∧ Reads outer names g₁ more g' := by
  generalize hsplit : "--file" :: rest = arguments at h
  cases h with
  | none => cases hsplit
  | @option _ g₁ _ used more htakes hrest =>
    cases used with
    | nil => cases htakes
    | cons first used =>
      obtain ⟨rfl, rfl⟩ := List.cons.inj hsplit
      obtain ⟨path, rfl, hmem, hvalue, hset⟩ := htakes.file_cons
      exact ⟨path, more, g₁, rfl, hmem, hvalue, hset, hrest⟩
  | operand _ htext =>
    obtain ⟨rfl, -⟩ := List.cons.inj hsplit
    rw [isValue_file] at htext
    cases htext

theorem Scans.file_cons (h : Scans outer names g ("--file" :: rest) result) :
    ∃ path more g₁, rest = path :: more ∧ .file ∈ names ∧ isValue path = true ∧
      g.set .file path = some g₁ ∧ Scans outer names g₁ more result := by
  obtain ⟨read, back, g₂, hsplit, hreads, hends⟩ := h
  cases read with
  | nil =>
    rw [List.nil_append] at hsplit
    subst hsplit
    cases hends with
    | operands hform => cases hform
    | subcommand _ hname =>
      rw [isValue_file] at hname
      cases hname
  | cons first read =>
    obtain ⟨rfl, rfl⟩ := List.cons.inj hsplit
    obtain ⟨path, more, g₁, rfl, hmem, hvalue, hset, hrest⟩ := hreads.file_cons
    exact ⟨path, more ++ back, g₁, rfl, hmem, hvalue, hset, more, back, g₂, rfl, hrest, hends⟩

end Given

theorem eq_decode_of_file_mem {name : String} {own : List OptionName}
    (hown : subcommandOptions? name = some own) (hmem : .file ∈ OptionName.general ++ own) :
    name = "decode" ∧ own = decodeOptions := by
  unfold subcommandOptions? at hown
  split at hown
  next =>
    cases hown
    exact ⟨rfl, rfl⟩
  next =>
    cases hown
    exact absurd hmem (by decide)
  next =>
    cases hown
    exact absurd hmem (by decide)
  next =>
    cases hown
    exact absurd hmem (by decide)
  next => cases hown

theorem length_operands_le_one {name : String} {subcommand : Subcommand}
    (h : subcommand? name g = some subcommand) : g.operands.length ≤ 1 := by
  unfold subcommand? at h
  split at h
  next =>
    obtain ⟨source, hsource, -⟩ := Option.bind_eq_some_iff.mp h
    unfold source? at hsource
    split at hsource
    next hoperands _ => simp [hoperands]
    next hoperands _ => simp [hoperands]
    next => cases hsource
  next hoperands => simp [hoperands]
  next hoperands => simp [hoperands]
  next hoperands => simp [hoperands]
  next => cases h

theorem operands_eq_nil_of_file {subcommand : Subcommand} (hfile : g.file = some path)
    (h : subcommand? "decode" g = some subcommand) : g.operands = [] := by
  obtain ⟨source, hsource, -⟩ := Option.bind_eq_some_iff.mp h
  unfold source? at hsource
  split at hsource
  next hnone =>
    rw [hfile] at hnone
    cases hnone
  next hoperands _ => exact hoperands
  next => cases hsource

theorem eq_of_set_file (h : g.set .file path = some g') :
    g.file = none ∧ g' = { g with file := some path } := by
  obtain ⟨new, hnew, hg⟩ := Option.bind_eq_some_iff.mp h
  cases hg
  simp only [Given.fresh, Given.path?] at hnew
  split_ifs at hnew <;> simp_all

theorem Exchanged.refl (hfile : g.file = some path) : Exchanged path (.file path) g g := by
  refine ⟨hfile, g.operands, [], (List.append_nil _).symm, ?_⟩
  simp [Source.path?, Source.operands, ← hfile]

theorem Exchanged.invocation?_eq {outer : Given} (hrel : Exchanged path source g h)
    (hoperands : g.operands = []) :
    invocation? outer "decode" h = some {
      config := g.config <|> outer.config
      network := g.network <|> outer.network
      json := g.json || outer.json
      subcommand := .decode
        ⟨source, g.parseTransactions, g.limit.getD 0, g.blockHash, g.height⟩ } := by
  obtain ⟨-, before, behind, hsplit, rfl⟩ := hrel
  rw [hoperands] at hsplit
  obtain ⟨rfl, rfl⟩ := List.append_eq_nil_iff.mp hsplit.symm
  cases source <;> rfl

/-- Only the inner place knows files, so the name of the subcommand stands before. -/
theorem Places.split_of_file {before behind : List String} {outer inner : Given} {name : String}
    (hplaces : Places before outer name behind inner)
    (hsplit : front ++ "--file" :: rest = before ++ name :: behind) :
    ∃ more, front = before ++ name :: more ∧ behind = more ++ "--file" :: rest := by
  have hname : name ≠ "--file" := by
    rintro rfl
    have hvalue := hplaces.isValue_name
    rw [isValue_file] at hvalue
    cases hvalue
  rcases List.append_eq_append_iff.mp hsplit with ⟨more, rfl, hmore⟩ | ⟨more, rfl, hmore⟩
  · cases more with
    | nil => exact absurd (List.cons.inj hmore).1.symm hname
    | cons first more =>
      obtain ⟨rfl, -⟩ := List.cons.inj hmore
      obtain ⟨g₁, -, hback⟩ := hplaces.reads_front.split isValue_file
      obtain ⟨_, _, _, -, hmem, -⟩ := hback.file_cons
      exact absurd hmem (by decide)
  · cases more with
    | nil => exact absurd (List.cons.inj hmore).1 hname
    | cons first more =>
      obtain ⟨rfl, rfl⟩ := List.cons.inj hmore
      exact ⟨more, rfl, rfl⟩

/-- Where a command line names a file, it asks to decode that file, and with any other source in its
place it asks for the same of that source. -/
theorem ofArguments_exchange
    (h : Request.ofArguments (front ++ "--file" :: path :: rest) = some (.run invocation)) :
    ∃ (config : Option String) (network : Option Network) (json : Bool) (request : DecodeRequest),
      invocation = ⟨config, network, json, .decode { request with source := .file path }⟩ ∧
      ∀ source : Source, source.Sayable →
        Request.ofArguments (front ++ (source.arguments ++ rest)) =
          some (.run ⟨config, network, json, .decode { request with source }⟩) := by
  obtain ⟨before, outer, name, behind, inner, hsplit, hplaces, hinvocation⟩ :=
    exists_places_of_ofArguments h
  obtain ⟨more, rfl, rfl⟩ := hplaces.split_of_file hsplit
  obtain ⟨own, hown, hscans⟩ := hplaces.scans_rest
  obtain ⟨subcommand, hsubcommand, hparts⟩ := Option.map_eq_some_iff.mp hinvocation
  have hlength := length_operands_le_one hsubcommand
  rcases hscans.split isValue_file with
    ⟨g₁, hfront, hback⟩ | ⟨read, first, between, g₁, rfl, -, hends⟩
  · obtain ⟨_, _, g₂, hcons, hmem, hvalue, hset, hrest⟩ := hback.file_cons
    cases hcons
    obtain ⟨rfl, rfl⟩ := eq_decode_of_file_mem hown hmem
    obtain ⟨hfile, rfl⟩ := eq_of_set_file hset
    have hself : Exchanged path (.file path) inner inner := by
      obtain ⟨_, -, hrel⟩ := (Exchanged.refl rfl).scans hrest
      exact .refl hrel.file_eq
    have hoperands := operands_eq_nil_of_file hself.file_eq hsubcommand
    rw [hself.invocation?_eq hoperands, Option.some.injEq] at hinvocation
    subst hinvocation
    refine ⟨_, _, _, ⟨.file path, inner.parseTransactions, inner.limit.getD 0, inner.blockHash,
      inner.height⟩, rfl, fun source hsource => ?_⟩
    obtain ⟨h₁, hreads, hrel⟩ := reads_arguments path hsource hfile
    obtain ⟨inner', hscans', hrel'⟩ := hrel.scans hrest
    have hplaces' : Places before outer "decode" (more ++ (source.arguments ++ rest)) inner' :=
      { isValue_name := hplaces.isValue_name
        name_ne_help := hplaces.name_ne_help
        reads_front := hplaces.reads_front
        scans_rest := ⟨decodeOptions, rfl, hfront.scans_append (hreads.scans_append hscans')⟩ }
    rw [List.append_assoc, List.cons_append]
    exact hplaces'.ofArguments_eq (hrel'.invocation?_eq hoperands)
  · rw [List.cons_append] at hends
    cases hends with
    | operands =>
      simp [Given.addOperands] at hlength
      omega

/-! ## Running with one source or another -/

/-- Command lines that ask to decode a block from some sources, all in the same way. -/
def AskAlike (sources : List Source) (lines : Source → List String) : Prop :=
  ∃ (config : Option String) (network : Option Network) (json : Bool) (request : DecodeRequest),
    ∀ source ∈ sources, Request.ofArguments (lines source) =
      some (.run ⟨config, network, json, .decode { request with source }⟩)

theorem AskAlike.run_eq {sources : List Source} {lines : Source → List String} {raw : List UInt8}
    (hask : AskAlike sources lines) (hraw : ∀ source ∈ sources, readSource s source = .ok raw)
    {source source' : Source} (hsource : source ∈ sources) (hsource' : source' ∈ sources) :
    run s (lines source) = run s (lines source') := by
  obtain ⟨config, network, json, request, hlines⟩ := hask
  simp only [run, hlines source hsource, hlines source' hsource', report, decode,
    hraw source hsource, hraw source' hsource']

theorem askAlike_of_file {sources : List Source} (hsources : ∀ source ∈ sources, source.Sayable)
    (h : Request.ofArguments (front ++ "--file" :: path :: rest) = some (.run invocation)) :
    AskAlike (.file path :: sources) fun source => front ++ (source.arguments ++ rest) := by
  obtain ⟨config, network, json, request, rfl, hlines⟩ := ofArguments_exchange h
  refine ⟨config, network, json, request, fun source hsource => ?_⟩
  rcases List.mem_cons.mp hsource with rfl | hsource
  · exact h
  · exact hlines source (hsources source hsource)

/-- Every text of some bytes is read as these bytes, among the arguments and from a file. The bytes
themselves are read from a file exactly if they are not misread. So a block that is not misread
gives the same, whichever way it comes in: on any command lines that differ in this alone, and so
on those with one source exchanged for another. -/
theorem block_forms_agree (raw : List UInt8) :
    (∀ text : String, Spells raw text.toList →
      decodeHex text = .ok raw ∧ blockOfFile (utf8 text) = raw) ∧
    (blockOfFile raw = raw ↔ ¬Misread raw) ∧
    (Misread raw ↔ raw ≠ [] ∧ ∃ (text : String) (other : List UInt8),
      raw = utf8 text ∧ Spells other text.toList) ∧
    ∀ (s : Surroundings) (text textPath rawPath : String), Spells raw text.toList →
      s.file textPath = .ok (utf8 text) → s.file rawPath = .ok raw → ¬Misread raw →
      (∀ lines, AskAlike [.file rawPath, .text text, .file textPath] lines →
        run s (lines (.text text)) = run s (lines (.file rawPath)) ∧
        run s (lines (.file textPath)) = run s (lines (.file rawPath))) ∧
      ∀ (front rest : List String) (invocation : Invocation),
        isValue textPath = true → textPath ≠ "" →
        Request.ofArguments (front ++ "--file" :: rawPath :: rest) = some (.run invocation) →
        run s (front ++ text :: rest) = run s (front ++ "--file" :: rawPath :: rest) ∧
        run s (front ++ "--file" :: textPath :: rest) =
          run s (front ++ "--file" :: rawPath :: rest) := by
  refine ⟨fun text htext => ⟨decodeHex_eq_ok_iff.mpr htext, blockOfFile_utf8 htext⟩,
    blockOfFile_eq_self_iff, misread_iff, ?_⟩
  intro s text textPath rawPath htext htextFile hrawFile hnot
  have hraw : ∀ source ∈ [Source.file rawPath, .text text, .file textPath],
      readSource s source = .ok raw := by
    simp only [List.forall_mem_cons, readSource, mapError_eq_ok_iff, hrawFile, htextFile]
    refine ⟨?_, decodeHex_eq_ok_iff.mpr htext, ?_, by simp⟩
    · exact congrArg Except.ok (blockOfFile_eq_self_iff.mpr hnot)
    · exact congrArg Except.ok (blockOfFile_utf8 htext)
  have hlines (lines : Source → List String)
      (hask : AskAlike [.file rawPath, .text text, .file textPath] lines) :
      run s (lines (.text text)) = run s (lines (.file rawPath)) ∧
        run s (lines (.file textPath)) = run s (lines (.file rawPath)) :=
    ⟨hask.run_eq hraw (by simp) (by simp), hask.run_eq hraw (by simp) (by simp)⟩
  refine ⟨hlines, fun front rest invocation hvalue hne h => ?_⟩
  have hsources : ∀ source ∈ [Source.text text, .file textPath], source.Sayable := by
    simp only [List.forall_mem_cons, Source.Sayable]
    exact ⟨htext.isValue, ⟨hvalue, hne⟩, by simp⟩
  exact hlines _ (askAlike_of_file hsources h)

/-- A header whose first byte begins no text. -/
def untextual : Header := { version := 0xff }

def marked : String := "0x" ++ Text.Hex.encode untextual.encode ++ "\n"

theorem spells_marked : Spells untextual.encode marked.toList := by
  refine ⟨[], ['0', 'x'], (Text.Hex.encode untextual.encode).toList, ['\n'], ?_, by simp, ?_,
    .inr rfl, rfl⟩
  · simp [marked]
  · simp only [List.forall_mem_singleton]
    decide

def twoFiles : Surroundings where
  configFile := none
  file path :=
    if path = "block.hex" then .ok (utf8 marked)
    else if path = "block.bin" then .ok untextual.encode
    else .error .missing

theorem block_forms_agree_untextual :
    run twoFiles ["decode", "--json", marked, "--limit", "3"] =
        run twoFiles ["decode", "--json", "--file", "block.bin", "--limit", "3"] ∧
      run twoFiles ["decode", "--json", "--file", "block.hex", "--limit", "3"] =
        run twoFiles ["decode", "--json", "--file", "block.bin", "--limit", "3"] := by
  have hnot : ¬Misread untextual.encode := by
    rintro ⟨-, text, _, htext, -⟩
    have hnone : utf8? untextual.encode = none := by rfl
    rw [utf8?_eq_some_iff.mpr htext] at hnone
    cases hnone
  have hjson : option? false (OptionName.general ++ decodeOptions) "json" = some .json := rfl
  have hfile : option? false (OptionName.general ++ decodeOptions) "file" = some .file := rfl
  have hlimit : Given.limit? "3" = some 3 := by decide
  have hreads : Reads false (OptionName.general ++ decodeOptions) {}
      (["--json"] ++ (["--file", "block.bin"] ++ (["--limit", "3"] ++ [])))
      { json := true, file := some "block.bin", limit := some 3 } :=
    .option (.raised rfl hjson rfl rfl)
      (.option (.apart rfl hfile rfl rfl rfl) (.option (takes_limit rfl hlimit) (.none _)))
  have hplaces : Places [] {} "decode" ["--json", "--file", "block.bin", "--limit", "3"]
      { json := true, file := some "block.bin", limit := some 3 } :=
    { isValue_name := rfl
      name_ne_help := by decide
      reads_front := .none _
      scans_rest := ⟨decodeOptions, rfl, _, [], _, rfl, hreads, .done⟩ }
  have hasks : Request.ofArguments
      (["decode", "--json"] ++ "--file" :: "block.bin" :: ["--limit", "3"]) =
        some (.run ⟨none, none, true, .decode ⟨.file "block.bin", false, 3, none, none⟩⟩) :=
    hplaces.ofArguments_eq rfl
  exact ((block_forms_agree untextual.encode).2.2.2 twoFiles marked "block.hex" "block.bin"
    spells_marked rfl rfl hnot).2 ["decode", "--json"] ["--limit", "3"] _ rfl (by decide) hasks

end BitcoinBlock.CommandLine
