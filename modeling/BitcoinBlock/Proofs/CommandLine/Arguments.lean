import BitcoinBlock.CommandLine.Arguments

/-! # The grammar of arguments

What one place reads: options, each with its value if it takes one, and operands. The scan of a
place is described by this grammar, and it depends on the options before it only by what they give.
-/
namespace BitcoinBlock.CommandLine

variable {outer : Bool} {names : List OptionName} {g g' : Given} {arguments rest : List String}

theorem Argument.eq_of_ofText_eq_operand {argument text : String}
    (h : ofText argument = .operand text) : argument = text := by
  unfold ofText at h
  split at h
  · cases h
  · unfold ofLong at h
    split at h <;> cases h
  · cases h
  · cases h
    rfl

theorem isValue_iff {text : String} :
    isValue text = true ↔ Argument.ofText text = .operand text := by
  rw [isValue]
  constructor
  · intro h
    split at h
    next hform =>
      rwa [← Argument.eq_of_ofText_eq_operand hform] at hform
    next => cases h
  · intro h
    rw [h]

theorem isValue_of_head?_ne {text : String} (h : text.toList.head? ≠ some '-') :
    isValue text = true := by
  rw [isValue_iff, Argument.ofText]
  split
  next heq => exact absurd (congrArg List.head? heq) h
  next heq => exact absurd (congrArg List.head? heq) h
  next heq => exact absurd (congrArg List.head? heq) h
  next => rfl

/-- The option of a place that goes by a name. Help and the version are none. -/
def option? (outer : Bool) (names : List OptionName) (name : String) : Option OptionName :=
  if name = "help" ∨ (outer = true ∧ name = "version") then none
  else names.find? fun n => n.text == name

/-- One option at the front, with its value if it takes one, and what is given after it. -/
inductive Takes (outer : Bool) (names : List OptionName) (g : Given) : List String → Given → Prop
  | joined {argument name value : String} {option : OptionName} {g' : Given}
      (hform : Argument.ofText argument = .long name (some value))
      (hoption : option? outer names name = some option)
      (hset : g.set option value = some g') : Takes outer names g [argument] g'
  | apart {argument name value : String} {option : OptionName} {g' : Given}
      (hform : Argument.ofText argument = .long name none)
      (hoption : option? outer names name = some option) (htakes : option.takesValue = true)
      (hvalue : isValue value = true) (hset : g.set option value = some g') :
      Takes outer names g [argument, value] g'
  | raised {argument name : String} {option : OptionName} {g' : Given}
      (hform : Argument.ofText argument = .long name none)
      (hoption : option? outer names name = some option) (htakes : option.takesValue = false)
      (hraise : g.raise option = some g') : Takes outer names g [argument] g'

/-- The options and operands that a place reads one after the other. Only a subcommand has
operands. -/
inductive Reads (outer : Bool) (names : List OptionName) : Given → List String → Given → Prop
  | none (g : Given) : Reads outer names g [] g
  | option {g g₁ g₂ : Given} {used rest : List String} (htakes : Takes outer names g used g₁)
      (hrest : Reads outer names g₁ rest g₂) : Reads outer names g (used ++ rest) g₂
  | operand {g g' : Given} {text : String} {rest : List String} (hplace : outer = false)
      (htext : isValue text = true) (hrest : Reads outer names (g.addOperands [text]) rest g') :
      Reads outer names g (text :: rest) g'

/-- How a place ends that is not left for help or the version. -/
inductive Ends (outer : Bool) (g : Given) : List String → Scan → Prop
  | done : Ends outer g [] (.finished g)
  | operands {argument : String} {rest : List String}
      (hform : Argument.ofText argument = .endOfOptions) :
      Ends outer g (argument :: rest) (.finished (g.addOperands rest))
  | subcommand {name : String} {rest : List String} (hplace : outer = true)
      (hname : isValue name = true) : Ends outer g (name :: rest) (.subcommand g name rest)

/-- A place reads what stands in front, and ends with the rest. -/
def Scans (outer : Bool) (names : List OptionName) (g : Given) (arguments : List String)
    (result : Scan) : Prop :=
  ∃ front back g', arguments = front ++ back ∧ Reads outer names g front g' ∧
    Ends outer g' back result

theorem option?_eq_some_iff {name : String} {option : OptionName} :
    option? outer names name = some option ↔
      ¬name = "help" ∧ ¬(outer && decide (name = "version")) = true ∧
        names.find? (fun n => n.text == name) = some option := by
  rw [option?]
  by_cases hhelp : name = "help"
  · simp [hhelp]
  · by_cases hversion : outer = true ∧ name = "version"
    · simp [hversion]
    · have hplace : (outer && decide (name = "version")) = false := by
        simpa using hversion
      simp [hhelp, hversion, hplace]

theorem Takes.scan_append {used : List String} (h : Takes outer names g used g')
    (rest : List String) : scan outer names g (used ++ rest) = scan outer names g' rest := by
  cases h with
  | joined hform hoption hset =>
    obtain ⟨hhelp, hversion, hfind⟩ := option?_eq_some_iff.mp hoption
    simp [scan, hform, hhelp, hversion, hfind, hset]
  | apart hform hoption htakes hvalue hset =>
    obtain ⟨hhelp, hversion, hfind⟩ := option?_eq_some_iff.mp hoption
    simp [scan, hform, hhelp, hversion, hfind, htakes, hvalue, hset]
  | raised hform hoption htakes hraise =>
    obtain ⟨hhelp, hversion, hfind⟩ := option?_eq_some_iff.mp hoption
    simp [scan, hform, hhelp, hversion, hfind, htakes, hraise]

theorem Reads.scan_append {front : List String} (h : Reads outer names g front g')
    (rest : List String) : scan outer names g (front ++ rest) = scan outer names g' rest := by
  induction h with
  | none g => rfl
  | option htakes _ ih => rw [List.append_assoc, htakes.scan_append, ih]
  | operand hplace htext _ ih =>
    rw [List.cons_append, ← ih, scan, isValue_iff.mp htext]
    simp [hplace]

theorem Ends.scan_eq {result : Scan} (h : Ends outer g rest result) (names : List OptionName) :
    scan outer names g rest = some result := by
  cases h with
  | done => rfl
  | operands hform => simp [scan, hform]
  | subcommand hplace hname => simp [scan, isValue_iff.mp hname, hplace]

theorem Ends.scans {result : Scan} (h : Ends outer g arguments result) :
    Scans outer names g arguments result :=
  ⟨[], arguments, g, rfl, .none g, h⟩

theorem Takes.scans {used : List String} {result : Scan} (h : Takes outer names g used g')
    (hrest : Scans outer names g' rest result) : Scans outer names g (used ++ rest) result := by
  obtain ⟨front, back, g₁, rfl, hreads, hends⟩ := hrest
  exact ⟨used ++ front, back, g₁, (List.append_assoc _ _ _).symm, .option h hreads, hends⟩

theorem scans_operand {text : String} {result : Scan} (hplace : outer = false)
    (htext : isValue text = true) (hrest : Scans outer names (g.addOperands [text]) rest result) :
    Scans outer names g (text :: rest) result := by
  obtain ⟨front, back, g₁, rfl, hreads, hends⟩ := hrest
  exact ⟨text :: front, back, g₁, rfl, .operand hplace htext hreads, hends⟩

theorem scans_of_scan {result : Scan} (h : scan outer names g arguments = some result)
    (hhelp : result ≠ .help) (hversion : result ≠ .version) :
    Scans outer names g arguments result := by
  fun_induction scan outer names g arguments
  case case1 g =>
    cases h
    exact Ends.done.scans
  case case2 hform =>
    cases h
    exact (Ends.operands hform).scans
  case case3 hform hplace =>
    cases h
    obtain rfl := Argument.eq_of_ofText_eq_operand hform
    exact (Ends.subcommand hplace (isValue_iff.mpr hform)).scans
  case case4 hform hplace ih =>
    obtain rfl := Argument.eq_of_ofText_eq_operand hform
    exact scans_operand (by simpa using hplace) (isValue_iff.mpr hform) (ih h)
  case case13 hname hplace _ _ _ hfind hform ih =>
    obtain ⟨g₁, hset, hrest⟩ := Option.bind_eq_some_iff.mp h
    have hoption := option?_eq_some_iff.mpr ⟨hname, hplace, hfind⟩
    exact (Takes.joined hform hoption hset).scans (ih g₁ hrest)
  case case14 hname hplace _ hfind htakes _ _ hvalue hform ih =>
    obtain ⟨g₁, hset, hrest⟩ := Option.bind_eq_some_iff.mp h
    have hoption := option?_eq_some_iff.mpr ⟨hname, hplace, hfind⟩
    exact (Takes.apart hform hoption htakes hvalue hset).scans (ih g₁ hrest)
  case case17 hname hplace _ _ hfind htakes hform ih =>
    obtain ⟨g₁, hraise, hrest⟩ := Option.bind_eq_some_iff.mp h
    have hoption := option?_eq_some_iff.mpr ⟨hname, hplace, hfind⟩
    exact (Takes.raised hform hoption (by simpa using htakes) hraise).scans (ih g₁ hrest)
  all_goals simp_all

theorem scan_eq_some_iff {result : Scan} (hhelp : result ≠ .help) (hversion : result ≠ .version) :
    scan outer names g arguments = some result ↔ Scans outer names g arguments result := by
  constructor
  · exact fun h => scans_of_scan h hhelp hversion
  · rintro ⟨front, back, g', rfl, hreads, hends⟩
    rw [hreads.scan_append, hends.scan_eq]

theorem Reads.scans_append {front : List String} (h : Reads outer names g front g') {last : Given}
    (hrest : Scans outer names g' rest (.finished last)) :
    Scans outer names g (front ++ rest) (.finished last) := by
  rw [← scan_eq_some_iff (by simp) (by simp)] at hrest ⊢
  rw [h.scan_append, hrest]

/-! ## Scans that go the same way -/

section Simulation

variable {names' : List OptionName} {R : Given → Given → Prop}

theorem mem_of_option? {name : String} {option : OptionName}
    (h : option? outer names name = some option) : option ∈ names :=
  List.mem_of_find?_eq_some (option?_eq_some_iff.mp h).2.2

/-- A relation that each option and operand keeps is kept by all that a place reads. -/
theorem Reads.simulate
    (hnames : ∀ {name option}, option? outer names name = some option →
      option? outer names' name = some option)
    (hset : ∀ {g h g' option value}, option ∈ names → R g h → g.set option value = some g' →
      ∃ h', h.set option value = some h' ∧ R g' h')
    (hraise : ∀ {g h g' option}, option ∈ names → R g h → g.raise option = some g' →
      ∃ h', h.raise option = some h' ∧ R g' h')
    (hoperand : ∀ {g h} texts, R g h → R (g.addOperands texts) (h.addOperands texts))
    {h : Given} (hreads : Reads outer names g arguments g') (hrel : R g h) :
    ∃ h', Reads outer names' h arguments h' ∧ R g' h' := by
  induction hreads generalizing h with
  | none g => exact ⟨h, .none h, hrel⟩
  | option htakes _ ih =>
    cases htakes with
    | joined hform hoption hg =>
      obtain ⟨h₁, hh, hrel⟩ := hset (mem_of_option? hoption) hrel hg
      obtain ⟨h₂, hreads, hrel⟩ := ih hrel
      exact ⟨h₂, .option (.joined hform (hnames hoption) hh) hreads, hrel⟩
    | apart hform hoption htakes hvalue hg =>
      obtain ⟨h₁, hh, hrel⟩ := hset (mem_of_option? hoption) hrel hg
      obtain ⟨h₂, hreads, hrel⟩ := ih hrel
      exact ⟨h₂, .option (.apart hform (hnames hoption) htakes hvalue hh) hreads, hrel⟩
    | raised hform hoption htakes hg =>
      obtain ⟨h₁, hh, hrel⟩ := hraise (mem_of_option? hoption) hrel hg
      obtain ⟨h₂, hreads, hrel⟩ := ih hrel
      exact ⟨h₂, .option (.raised hform (hnames hoption) htakes hh) hreads, hrel⟩
  | operand hplace htext _ ih =>
    obtain ⟨h₂, hreads, hrel⟩ := ih (hoperand _ hrel)
    exact ⟨h₂, .operand hplace htext hreads, hrel⟩

theorem Scans.simulate
    (hnames : ∀ {name option}, option? outer names name = some option →
      option? outer names' name = some option)
    (hset : ∀ {g h g' option value}, option ∈ names → R g h → g.set option value = some g' →
      ∃ h', h.set option value = some h' ∧ R g' h')
    (hraise : ∀ {g h g' option}, option ∈ names → R g h → g.raise option = some g' →
      ∃ h', h.raise option = some h' ∧ R g' h')
    (hoperand : ∀ {g h} texts, R g h → R (g.addOperands texts) (h.addOperands texts))
    {h : Given} (hscans : Scans outer names g arguments (.finished g')) (hrel : R g h) :
    ∃ h', Scans outer names' h arguments (.finished h') ∧ R g' h' := by
  obtain ⟨front, back, g₁, rfl, hreads, hends⟩ := hscans
  obtain ⟨h₁, hreads', hrel⟩ := hreads.simulate hnames hset hraise hoperand hrel
  cases hends with
  | done => exact ⟨h₁, ⟨front, [], h₁, rfl, hreads', .done⟩, hrel⟩
  | operands hform =>
    exact ⟨_, ⟨front, _, h₁, rfl, hreads', .operands hform⟩, hoperand _ hrel⟩

end Simulation

/-! ## Where an option may stand -/

section Split

variable {front behind : List String} {argument : String}

theorem Takes.split {used : List String} (h : Takes outer names g used g')
    (hargument : isValue argument = false)
    (hsplit : front ++ argument :: rest = used ++ behind) :
    front = [] ∨ ∃ more, front = used ++ more ∧ more ++ argument :: rest = behind := by
  cases front with
  | nil => exact .inl rfl
  | cons first front =>
    right
    cases h with
    | joined | raised =>
      simp only [List.cons_append, List.nil_append, List.cons.injEq] at hsplit
      obtain ⟨rfl, hmore⟩ := hsplit
      exact ⟨front, rfl, hmore⟩
    | apart _ _ _ hvalue =>
      cases front with
      | nil =>
        simp only [List.cons_append, List.nil_append, List.cons.injEq] at hsplit
        rw [hsplit.2.1, hvalue] at hargument
        cases hargument
      | cons second front =>
        simp only [List.cons_append, List.nil_append, List.cons.injEq] at hsplit
        obtain ⟨rfl, rfl, hmore⟩ := hsplit
        exact ⟨front, rfl, hmore⟩

theorem Reads.split (hargument : isValue argument = false)
    (h : Reads outer names g (front ++ argument :: rest) g') :
    ∃ g₁, Reads outer names g front g₁ ∧ Reads outer names g₁ (argument :: rest) g' := by
  generalize hsplit : front ++ argument :: rest = arguments at h
  induction h generalizing front with
  | none g => simp at hsplit
  | @option g g₁ g₂ used behind htakes hrest ih =>
    rcases htakes.split hargument hsplit with rfl | ⟨more, rfl, hmore⟩
    · rw [List.nil_append] at hsplit
      exact ⟨g, .none g, hsplit ▸ .option htakes hrest⟩
    · obtain ⟨g₃, hfront, hback⟩ := ih hmore
      exact ⟨g₃, .option htakes hfront, hback⟩
  | @operand g g' text behind hplace htext hrest ih =>
    cases front with
    | nil =>
      rw [List.nil_append] at hsplit
      exact ⟨g, .none g, hsplit ▸ .operand hplace htext hrest⟩
    | cons first front =>
      obtain ⟨hfirst, hmore⟩ := List.cons.inj hsplit
      obtain ⟨g₃, hfront, hback⟩ := ih hmore
      exact ⟨g₃, hfirst ▸ .operand hplace htext hfront, hback⟩

/-- A scan gets to what cannot be a value, unless it ends before. -/
theorem Scans.split {result : Scan} (hargument : isValue argument = false)
    (h : Scans outer names g (front ++ argument :: rest) result) :
    (∃ g₁, Reads outer names g front g₁ ∧ Scans outer names g₁ (argument :: rest) result) ∨
      ∃ before first more g₁, front = before ++ first :: more ∧ Reads outer names g before g₁ ∧
        Ends outer g₁ (first :: more ++ argument :: rest) result := by
  obtain ⟨read, behind, g₁, hsplit, hreads, hends⟩ := h
  rcases List.append_eq_append_iff.mp hsplit with ⟨more, rfl, hmore⟩ | ⟨more, rfl, rfl⟩
  · left
    cases more with
    | nil =>
      rw [List.append_nil] at hreads
      rw [List.nil_append] at hmore
      exact ⟨g₁, hreads, hmore ▸ hends.scans⟩
    | cons first more =>
      obtain ⟨hfirst, hrest⟩ := List.cons.inj hmore
      subst hfirst hrest
      obtain ⟨g₂, hfront, hback⟩ := hreads.split hargument
      exact ⟨g₂, hfront, argument :: more, behind, g₁, rfl, hback, hends⟩
  · cases more with
    | nil =>
      rw [List.append_nil]
      exact .inl ⟨g₁, hreads, hends.scans⟩
    | cons first more => exact .inr ⟨read, first, more, g₁, rfl, hreads, hends⟩

end Split

end BitcoinBlock.CommandLine
