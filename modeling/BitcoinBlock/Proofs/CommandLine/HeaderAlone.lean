import BitcoinBlock.Proofs.Block.Reading
import BitcoinBlock.Proofs.CommandLine.BlockText
import BitcoinBlock.Proofs.CommandLine.Requests
import BitcoinBlock.Proofs.Header

/-! # Headers alone

A header alone is a block without transactions. So wherever the command prints a header, it prints
the same when it is asked to decode the same text as a block, whatever else it is asked to read.
-/
namespace BitcoinBlock

open Text

theorem Header.ofHex_eq_ok_iff {text : String} {h : Header} :
    Header.ofHex text = .ok h ↔ SameButCase text.toList (Hex.encode h.encode).toList := by
  rw [← Hex.decode_eq_ok_iff, Header.ofHex]
  cases Hex.decode text.toList with
  | error fault => simp
  | ok bytes => rw [Except.ok.injEq, ← Header.ofBytes_eq_ok_iff]

/-- Nothing is asked of the transactions of a block that is a header alone. -/
theorem Block.read_header_alone (header : Header) {options : ReadOptions}
    (hhash : options.hash = none) (hheight : options.height = none) :
    (Block.read header.encode options).result =
      .ok { header, entries := [], count := none, height := none, network := options.network } := by
  have hread := Block.read_append_result header [] options
  rw [List.append_nil, hhash, hheight] at hread
  rw [hread, ← Block.assemble_nil_result]
  rfl

namespace CommandLine

variable {s : Surroundings} {arguments : List String} {output : String}

/-- The text of a header has no `0x` in front, so as a block it has the same bytes. -/
theorem decodeHex_of_header {hex : String} {header : Header}
    (h : Header.ofHex (String.ofList (trim hex.toList)) = .ok header) :
    decodeHex hex = .ok header.encode := by
  rw [Header.ofHex_eq_ok_iff, String.toList_ofList] at h
  rw [decodeHex, dropMarker_of_not_isPrefix (not_isPrefix_body h), Hex.decode_eq_ok_iff]
  exact h

theorem blockOfHeader_eq (header : Header) (height : Option UInt32) (network : Network) :
    blockOfHeader header height network =
      .ok { header, entries := [], count := none, height, network } := by
  rw [blockOfHeader, Block.assemble_nil_result]
  rfl

theorem decode_of_decodeHeader {network : Network} {hex : String} {b : Block}
    (h : decodeHeader network hex = .ok b) (s : Surroundings) (settings : Settings) (all : Bool)
    (limit : Nat) : decode s settings network ⟨.text hex, all, limit, none, none⟩ = .ok b := by
  rw [decodeHeader, bind_eq_ok_iff] at h
  obtain ⟨header, hheader, hb⟩ := h
  rw [blockOfHeader_eq] at hb
  cases hb
  have hraw : decodeHex hex = .ok header.encode :=
    decodeHex_of_header (mapError_eq_ok_iff.mp hheader)
  simp only [decode, readSource, bind_eq_ok_iff, mapError_eq_ok_iff]
  exact ⟨header.encode, hraw, none, rfl, Block.read_header_alone header rfl rfl⟩

theorem report_of_header {config : Option String} {network : Option Network} {json : Bool}
    {hex : String} {r : Report} (h : report s ⟨config, network, json, .header hex⟩ = .ok r)
    (all : Bool) (limit : Nat) :
    report s ⟨config, network, json, .decode ⟨.text hex, all, limit, none, none⟩⟩ = .ok r := by
  rw [report, bind_eq_ok_iff] at h ⊢
  obtain ⟨settings, hsettings, h⟩ := h
  refine ⟨settings, hsettings, ?_⟩
  obtain ⟨b, hb, rfl⟩ := map_eq_ok_iff.mp h
  exact map_eq_ok_iff.mpr ⟨b, decode_of_decodeHeader hb s settings all limit, rfl⟩

theorem run_eq_printed_iff {invocation : Invocation}
    (h : Request.ofArguments arguments = some (.run invocation)) :
    run s arguments = .printed output ↔
      ∃ r, report s invocation = .ok r ∧
        (if invocation.json then r.json.pretty else r.text) = output := by
  rw [run, h]
  cases hreport : report s invocation with
  | ok r => simp [hreport]
  | error failure => simp [hreport]

/-- Where asking for a header prints something, asking for the same text as a block prints the same,
with or without all transactions and with any limit to them. The first part changes the command line
in the place of the subcommand, the second takes any command line that asks for such a block. -/
theorem decode_prints_header {config : Option String} {network : Option Network} {json : Bool}
    {text : String}
    (hasks : Request.ofArguments arguments = some (.run ⟨config, network, json, .header text⟩))
    (hrun : run s arguments = .printed output) :
    (∃ front rest, arguments = front ++ "header" :: rest ∧
      ∀ (all : Bool) (limit : Option String),
        (∀ number ∈ limit, (Given.limit? number).isSome = true) →
        run s (front ++ "decode" :: (readingOptions all limit ++ rest)) = .printed output) ∧
    ∀ (all : Bool) (limit : Nat) (others : List String),
      Request.ofArguments others = some (.run ⟨config, network, json,
        .decode ⟨.text text, all, limit, none, none⟩⟩) →
      run s others = .printed output := by
  obtain ⟨r, hreport, hprinted⟩ := (run_eq_printed_iff hasks).mp hrun
  have hothers (all : Bool) (limit : Nat) (others : List String)
      (hother : Request.ofArguments others = some (.run ⟨config, network, json,
        .decode ⟨.text text, all, limit, none, none⟩⟩)) : run s others = .printed output :=
    (run_eq_printed_iff hother).mpr ⟨r, report_of_header hreport all limit, hprinted⟩
  refine ⟨?_, hothers⟩
  obtain ⟨front, rest, rfl, hdecode⟩ := ofArguments_decode_of_header hasks
  exact ⟨front, rest, rfl, fun all limit hlimit => hothers _ _ _ (hdecode all limit hlimit)⟩

theorem decodeHeader_encode (network : Network) (header : Header) :
    decodeHeader network (Hex.encode header.encode) =
      .ok { header, entries := [], count := none, height := none, network } := by
  have htrim : trim (Hex.encode header.encode).toList = (Hex.encode header.encode).toList :=
    trim_eq_self fun c hc => isBlank_of_mem_body rfl hc
  rw [decodeHeader, bind_eq_ok_iff]
  refine ⟨header, mapError_eq_ok_iff.mpr ?_, blockOfHeader_eq header none network⟩
  rw [htrim, String.ofList_toList, Header.ofHex_eq_ok_iff]
  rfl

theorem decode_prints_header_zeros :
    ∃ output,
      run ⟨none, fun _ => .error .missing⟩
        ["header", "--json", Hex.encode (Header.encode {})] = .printed output ∧
      run ⟨none, fun _ => .error .missing⟩
        ["decode", "--parse-transactions", "--limit", "2", "--json",
          Hex.encode (Header.encode {})] = .printed output := by
  have htext : isValue (Hex.encode (Header.encode {})) = true := (spells_encode _).isValue
  have hdecode := decodeHeader_encode .bitcoin {}
  generalize Hex.encode (Header.encode {}) = text at htext hdecode ⊢
  have hjson : option? false OptionName.general "json" = some .json := rfl
  have hreads : Reads false OptionName.general {} (["--json"] ++ [text])
      { json := true, operands := [text] } :=
    .option (.raised rfl hjson rfl rfl) (.operand rfl htext (.none _))
  have hplaces : Places [] {} "header" ["--json", text] { json := true, operands := [text] } :=
    { isValue_name := rfl
      name_ne_help := by decide
      reads_front := .none _
      scans_rest := ⟨[], rfl, _, [], _, rfl, hreads, .done⟩ }
  have hasks : Request.ofArguments ["header", "--json", text] =
      some (.run ⟨none, none, true, .header text⟩) := hplaces.ofArguments_eq rfl
  have hreport : report ⟨none, fun _ => .error .missing⟩ ⟨none, none, true, .header text⟩ =
      .ok (.block ⟨{}, [], [], none, none, none, .bitcoin⟩) := by
    rw [report, bind_eq_ok_iff]
    exact ⟨{}, rfl, map_eq_ok_iff.mpr ⟨_, hdecode, rfl⟩⟩
  have hrun := (run_eq_printed_iff hasks).mpr ⟨_, hreport, if_pos rfl⟩
  refine ⟨_, hrun, (decode_prints_header hasks hrun).2 true 2 _ ?_⟩
  have hlimit : ∀ number ∈ some "2", (Given.limit? number).isSome = true := by decide
  exact (hplaces.decode_of_header true hlimit).ofArguments_eq rfl

end CommandLine

end BitcoinBlock
