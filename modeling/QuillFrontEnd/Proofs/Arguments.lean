import QuillFrontEnd.Command.Options
import QuillFrontEnd.Proofs.Tiling

/-!
# What arguments ask for

The options are read off the arguments one after the other. What they come to can be said of all arguments at once: the first faulty
argument is reported; without one, each flag counts that stands anywhere, the last choice of a colour mode counts, and the arguments
that are no flags are the files, in order. So it does not matter where a flag stands, or how often, unless it chooses a colour mode.
-/

namespace QuillFrontEnd

namespace Options

variable {a : String} {o : Options} {said : Argument} {e : UsageError} {arguments : List String}

/-- The flags that choose a colour mode, and the modes that they choose. -/
def colorFlags : List (String × ColorMode) :=
  [("--color=auto", .auto), ("--color=always", .always), ("--color=never", .never)]

/-- The flags that do not choose a colour mode. -/
def plainFlags : List String := ["--quiet", "-q", "--tree"]

/-- All flags. -/
def flags : List String := plainFlags ++ colorFlags.map Prod.fst

/-- An argument that cannot be understood, and how it is reported: it chooses a colour mode that does not exist, or it begins with a
dash, goes on after it, and is no flag. -/
inductive Faulty : String → UsageError → Prop where
  | colorMode {value : String} :
      value ∉ ["auto", "always", "never"] → Faulty ("--color=" ++ value) (.invalidColorMode value)
  | option {argument : String} :
      argument.toList.head? = some '-' → 1 < argument.utf8ByteSize → (∀ value, argument ≠ "--color=" ++ value) →
      argument ∉ plainFlags → Faulty argument (.unknownOption argument)

/-- An argument that can be understood, and what it says. -/
inductive Says : String → Argument → Prop where
  | color {flag : String} {mode : ColorMode} : (flag, mode) ∈ colorFlags → Says flag (.color mode)
  | quiet {flag : String} : flag ∈ ["--quiet", "-q"] → Says flag .quiet
  | tree : Says "--tree" .tree
  | file {path : String} : path ∉ flags → Says path (.file path)

/-- The options that arguments ask for beyond some options, told from all arguments at once. -/
def asked (o : Options) (arguments : List String) : Options where
  color := (arguments.filterMap fun a => List.lookup a colorFlags).getLast?.getD o.color
  quiet := o.quiet || arguments.any (· ∈ ["--quiet", "-q"])
  tree := o.tree || arguments.any (· = "--tree")
  files := o.files ++ arguments.filter (· ∉ flags)

/-! ## One argument -/

theorem toList_color (value : String) : ("--color=" ++ value).toList = colorFlag ++ value.toList := String.toList_append

/-- An argument begins like a choice of a colour mode if it is one of some value. -/
theorem colorFlag_isPrefixOf_iff : colorFlag.isPrefixOf a.toList = true ↔ ∃ value, a = "--color=" ++ value := by
  rw [List.isPrefixOf_iff_prefix, List.prefix_iff_exists_eq_append]
  constructor
  · intro h
    obtain ⟨cs, hcs⟩ := h
    refine ⟨String.ofList cs, String.toList_inj.1 ?_⟩
    rw [toList_color, String.toList_ofList, hcs]
  · rintro ⟨value, rfl⟩
    exact ⟨value.toList, toList_color value⟩

/-- A dash has one byte, so a text that begins with a dash has more bytes than one if it has more characters than one. -/
theorem one_lt_utf8ByteSize_iff (h : a.toList.head? = some '-') : 1 < a.utf8ByteSize ↔ 1 < a.toList.length := by
  obtain ⟨cs, hcs⟩ : ∃ cs, a.toList = '-' :: cs := List.head?_eq_some_iff.1 h
  rw [← Text.byteLength_toList, hcs]
  cases cs with
  | nil => decide
  | cons c cs =>
    have hc := c.utf8Size_pos
    have hdash : '-'.utf8Size = 1 := rfl
    simp only [Text.byteLength, List.length_cons]
    omega

theorem readArgument_color (value : String) :
    readArgument ("--color=" ++ value) = match ColorMode.ofFlag? value with
      | some mode => .ok (.color mode)
      | none => .error (.invalidColorMode value) := by
  have hcolor : colorFlag.isPrefixOf ("--color=" ++ value).toList = true := colorFlag_isPrefixOf_iff.2 ⟨value, rfl⟩
  have hvalue : String.ofList (("--color=" ++ value).toList.drop colorFlag.length) = value := by
    rw [toList_color, List.drop_left, String.ofList_toList]
  rw [readArgument]
  dsimp only
  cases hflag : ColorMode.ofFlag? value <;> rw [if_pos hcolor, hvalue, hflag]

theorem readArgument_of_ne_color (h : ∀ value, a ≠ "--color=" ++ value) :
    readArgument a =
      if a = "--quiet" ∨ a = "-q" then .ok .quiet
      else if a = "--tree" then .ok .tree
      else if a.toList.head? = some '-' ∧ 1 < a.utf8ByteSize then .error (.unknownOption a)
      else .ok (.file a) := by
  have hcolor : ¬colorFlag.isPrefixOf a.toList = true := fun hpre => by
    obtain ⟨value, ha⟩ := colorFlag_isPrefixOf_iff.1 hpre
    exact h value ha
  have hdash : (a.toList.head? = some '-' ∧ 1 < a.toList.length) ↔ (a.toList.head? = some '-' ∧ 1 < a.utf8ByteSize) :=
    and_congr_right fun hhead => (one_lt_utf8ByteSize_iff hhead).symm
  simp only [readArgument, if_neg hcolor, hdash]

theorem exists_ofFlag?_of_mem {value : String} (h : value ∈ ["auto", "always", "never"]) :
    ∃ mode, ColorMode.ofFlag? value = some mode ∧ ("--color=" ++ value, mode) ∈ colorFlags := by
  simp only [List.mem_cons, List.not_mem_nil, or_false] at h
  rcases h with rfl | rfl | rfl <;> exact ⟨_, rfl, by decide⟩

theorem ofFlag?_of_notMem {value : String} (h : value ∉ ["auto", "always", "never"]) : ColorMode.ofFlag? value = none := by
  simp only [List.mem_cons, List.not_mem_nil, or_false, not_or] at h
  rw [ColorMode.ofFlag?, if_neg h.1, if_neg h.2.1, if_neg h.2.2]

/-- Every argument is either understood or reported. -/
theorem readArgument_cases (a : String) :
    (∃ said, readArgument a = .ok said ∧ Says a said) ∨ ∃ e, readArgument a = .error e ∧ Faulty a e := by
  by_cases hcolor : ∃ value, a = "--color=" ++ value
  · obtain ⟨value, rfl⟩ := hcolor
    by_cases hmode : value ∈ ["auto", "always", "never"]
    · obtain ⟨mode, hvalue, hmem⟩ := exists_ofFlag?_of_mem hmode
      exact .inl ⟨_, by rw [readArgument_color, hvalue], .color hmem⟩
    · exact .inr ⟨_, by rw [readArgument_color, ofFlag?_of_notMem hmode], .colorMode hmode⟩
  · have hne : ∀ value, a ≠ "--color=" ++ value := not_exists.1 hcolor
    rw [readArgument_of_ne_color hne]
    by_cases hquiet : a = "--quiet" ∨ a = "-q"
    · rw [if_pos hquiet]
      exact .inl ⟨_, rfl, .quiet (by simpa using hquiet)⟩
    rw [if_neg hquiet]
    by_cases htree : a = "--tree"
    · rw [if_pos htree, htree]
      exact .inl ⟨_, rfl, .tree⟩
    rw [if_neg htree]
    have hplain : a ∉ plainFlags := by
      rw [not_or] at hquiet
      simp [plainFlags, hquiet, htree]
    by_cases hdash : a.toList.head? = some '-' ∧ 1 < a.utf8ByteSize
    · rw [if_pos hdash]
      exact .inr ⟨_, rfl, .option hdash.1 hdash.2 hne hplain⟩
    · rw [if_neg hdash]
      have hchoice : a ∉ colorFlags.map Prod.fst := by
        simpa [colorFlags] using ⟨hne "auto", hne "always", hne "never"⟩
      exact .inl ⟨_, rfl, .file (by rw [flags, List.mem_append]; exact not_or.2 ⟨hplain, hchoice⟩)⟩

/-- What an argument says is not said of it by any report. -/
theorem readArgument_eq_error_iff : readArgument a = .error e ↔ Faulty a e := by
  constructor
  · intro h
    rcases readArgument_cases a with ⟨said, hread, -⟩ | ⟨e', hread, hfaulty⟩
    · rw [hread] at h
      cases h
    · obtain rfl : e' = e := Except.error.inj (hread.symm.trans h)
      exact hfaulty
  · intro h
    cases h with
    | colorMode hmode => rw [readArgument_color, ofFlag?_of_notMem hmode]
    | option hhead hsize hcolor hplain =>
      simp only [plainFlags, List.mem_cons, List.not_mem_nil, or_false, not_or] at hplain
      rw [readArgument_of_ne_color hcolor, if_neg (not_or.2 ⟨hplain.1, hplain.2.1⟩), if_neg hplain.2.2,
        if_pos ⟨hhead, hsize⟩]

/-- The report of an argument that cannot be understood. -/
def complaint? (a : String) : Option UsageError :=
  match readArgument a with
  | .ok _ => none
  | .error e => some e

theorem complaint?_eq_some_iff : complaint? a = some e ↔ Faulty a e := by
  rw [← readArgument_eq_error_iff, complaint?]
  cases readArgument a <;> simp

theorem complaint?_eq_none_iff : complaint? a = none ↔ ∀ e, ¬Faulty a e := by
  simp only [Option.eq_none_iff_forall_ne_some, ne_eq, complaint?_eq_some_iff]

theorem complaint?_of_mem_plainFlags (h : a ∈ plainFlags) : complaint? a = none := by
  simp only [plainFlags, List.mem_cons, List.not_mem_nil, or_false] at h
  rcases h with rfl | rfl | rfl <;> decide

/-! ## All arguments -/

theorem asked_nil (o : Options) : asked o [] = o := by simp [asked]

theorem lookup_of_mem_colorFlags :
    ∀ p ∈ colorFlags, List.lookup p.1 colorFlags = some p.2 ∧ p.1 ≠ "--quiet" ∧ p.1 ≠ "-q" ∧ p.1 ≠ "--tree" := by decide

theorem lookup_of_mem_plainFlags : ∀ flag ∈ plainFlags, List.lookup flag colorFlags = none := by decide

/-- What an argument says is what asking for it alone comes to. -/
theorem apply_eq (h : Says a said) (o : Options) : o.apply said = asked o [a] := by
  cases h with
  | color hmem =>
    obtain ⟨hlookup, hquiet, hshort, htree⟩ := lookup_of_mem_colorFlags _ hmem
    have hflag : a ∈ flags := List.mem_append_right _ (List.mem_map_of_mem hmem)
    simp [asked, apply, hlookup, hquiet, hshort, htree, hflag]
  | quiet hmem =>
    have hplain : a ∈ plainFlags := List.mem_append_left ["--tree"] hmem
    have htree : a ≠ "--tree" := by
      rintro rfl
      exact absurd hmem (by decide)
    have hflag : a ∈ flags := List.mem_append_left _ hplain
    rw [List.mem_cons, List.mem_singleton] at hmem
    simp [asked, apply, lookup_of_mem_plainFlags a hplain, hmem, htree, hflag]
  | tree =>
    have hplain : "--tree" ∈ plainFlags := by decide
    have hflag : "--tree" ∈ flags := List.mem_append_left _ hplain
    simp [asked, apply, lookup_of_mem_plainFlags _ hplain, hflag]
  | file hpath =>
    have hcolor : List.lookup a colorFlags = none := by
      refine List.lookup_eq_none_iff.2 fun p hp => bne_iff_ne.2 ?_
      rintro rfl
      exact hpath (List.mem_append_right _ (List.mem_map_of_mem hp))
    have hplain : a ∉ plainFlags := fun hp => hpath (List.mem_append_left _ hp)
    simp only [plainFlags, List.mem_cons, List.not_mem_nil, or_false, not_or] at hplain
    simp [asked, apply, hcolor, hpath, hplain]

/-- What arguments ask for is asked for one part after the other. -/
theorem asked_append (o : Options) (arguments more : List String) : asked o (arguments ++ more) = asked (asked o arguments) more := by
  simp [asked, List.getLast?_append, Bool.or_assoc]

theorem quiet_asked_iff : (asked o arguments).quiet = true ↔ o.quiet = true ∨ "--quiet" ∈ arguments ∨ "-q" ∈ arguments := by
  simp [asked, and_or_left, exists_or]

theorem tree_asked_iff : (asked o arguments).tree = true ↔ o.tree = true ∨ "--tree" ∈ arguments := by
  simp [asked]

/-- Reading the arguments ends with the report of the first faulty one, or else with all that they ask for. -/
theorem applyAll_eq (o : Options) (arguments : List String) :
    applyAll o arguments = match arguments.findSome? complaint? with
      | some e => .error e
      | none => .ok (asked o arguments) := by
  induction arguments generalizing o with
  | nil => rw [List.findSome?_nil, asked_nil, applyAll]
  | cons a arguments ih =>
    rw [applyAll, List.findSome?_cons, complaint?]
    rcases readArgument_cases a with ⟨said, hread, hsays⟩ | ⟨e, hread, -⟩
    · rw [hread]
      exact (ih _).trans (by rw [apply_eq hsays, ← asked_append, List.singleton_append])
    · rw [hread]

/-- Options with the default file where they have no file. -/
def withDefaultFile (o : Options) : Options := { o with files := if o.files = [] then [defaultFile] else o.files }

/-- The options of arguments are reported or asked for, as all arguments together say. -/
theorem ofArguments_eq (arguments : List String) :
    ofArguments arguments = match arguments.findSome? complaint? with
      | some e => .error e
      | none => .ok (asked {} arguments).withDefaultFile := by
  rw [ofArguments, applyAll_eq]
  cases arguments.findSome? complaint? with
  | some e => rfl
  | none =>
    simp only [withDefaultFile, List.isEmpty_iff]
    split <;> rfl

theorem ofArguments_eq_error_iff : ofArguments arguments = .error e ↔ arguments.findSome? complaint? = some e := by
  rw [ofArguments_eq]
  cases arguments.findSome? complaint? <;> simp

/-! ## Flags that do not choose a colour mode -/

/-- The arguments without the flags that do not choose a colour mode. -/
def withoutPlainFlags (arguments : List String) : List String := arguments.filter (· ∉ plainFlags)

/-- A flag that does not choose a colour mode is never reported. -/
theorem findSome?_withoutPlainFlags (arguments : List String) :
    (withoutPlainFlags arguments).findSome? complaint? = arguments.findSome? complaint? := by
  induction arguments with
  | nil => rfl
  | cons a arguments ih =>
    rw [withoutPlainFlags, List.findSome?_cons]
    by_cases hplain : a ∈ plainFlags
    · rw [List.filter_cons_of_neg (by simpa using hplain), complaint?_of_mem_plainFlags hplain]
      exact ih
    · rw [List.filter_cons_of_pos (by simpa using hplain), List.findSome?_cons]
      cases complaint? a with
      | some e => rfl
      | none => exact ih

/-- Apart from the two options of their own, arguments ask for the same without these flags. -/
theorem asked_withoutPlainFlags (o : Options) (arguments : List String) :
    asked o arguments =
      { asked o (withoutPlainFlags arguments) with
        quiet := (asked o arguments).quiet
        tree := (asked o arguments).tree } := by
  have hcolor : (withoutPlainFlags arguments).filterMap (fun a => List.lookup a colorFlags) =
      arguments.filterMap fun a => List.lookup a colorFlags := by
    rw [withoutPlainFlags, List.filterMap_filter]
    congr 1
    funext a
    by_cases hplain : a ∈ plainFlags
    · simp [hplain, lookup_of_mem_plainFlags a hplain]
    · simp [hplain]
  have hfiles : (withoutPlainFlags arguments).filter (· ∉ flags) = arguments.filter (· ∉ flags) := by
    rw [withoutPlainFlags, List.filter_filter]
    refine List.filter_congr fun a _ => ?_
    by_cases hplain : a ∈ plainFlags
    · simp [flags, hplain]
    · simp [hplain]
  simp only [asked, hcolor, hfiles]

/-- Arguments with the same flags that do not choose a colour mode, wherever these stand and however often, ask for the same. -/
theorem asked_congr {arguments' : List String} (hrest : withoutPlainFlags arguments' = withoutPlainFlags arguments)
    (hplain : ∀ flag ∈ plainFlags, flag ∈ arguments' ↔ flag ∈ arguments) (o : Options) :
    asked o arguments' = asked o arguments := by
  have hquiet : (asked o arguments').quiet = (asked o arguments).quiet := by
    rw [Bool.eq_iff_iff, quiet_asked_iff, quiet_asked_iff, hplain "--quiet" (by decide), hplain "-q" (by decide)]
  have htree : (asked o arguments').tree = (asked o arguments).tree := by
    rw [Bool.eq_iff_iff, tree_asked_iff, tree_asked_iff, hplain "--tree" (by decide)]
  rw [asked_withoutPlainFlags o arguments', asked_withoutPlainFlags o arguments, hrest, hquiet, htree]

/-! ## What the arguments come to -/

/-- Reading arguments fails exactly if one of them is faulty, and reports the first that is. Otherwise the files are the arguments that
are no flags, in order, or one file by default; the two switches are on if a flag for them stands anywhere; and the colour mode is
that of the last flag that chooses one. So nothing changes if flags of the other kind are moved or repeated. -/
theorem ofArguments_exact (arguments : List String) :
    ((∃ e, ofArguments arguments = .error e) ↔ ∃ a ∈ arguments, ∃ e, Faulty a e) ∧
    (∀ e, ofArguments arguments = .error e →
      ∃ before a after, arguments = before ++ a :: after ∧ Faulty a e ∧ ∀ b ∈ before, ∀ e', ¬Faulty b e') ∧
    ((∀ a ∈ arguments, ∀ e, ¬Faulty a e) → ∃ o, ofArguments arguments = .ok o ∧
      o.files = (if arguments.filter (· ∉ flags) = [] then ["input.txt"] else arguments.filter (· ∉ flags)) ∧
      (o.quiet = true ↔ "--quiet" ∈ arguments ∨ "-q" ∈ arguments) ∧
      (o.tree = true ↔ "--tree" ∈ arguments) ∧
      o.color = (arguments.filterMap fun a => List.lookup a colorFlags).getLast?.getD .auto) ∧
    ∀ arguments', withoutPlainFlags arguments' = withoutPlainFlags arguments →
      (∀ flag ∈ plainFlags, flag ∈ arguments' ↔ flag ∈ arguments) → ofArguments arguments' = ofArguments arguments := by
  refine ⟨⟨?_, ?_⟩, fun e he => ?_, fun hnone => ?_, fun arguments' hrest hplain => ?_⟩
  · rintro ⟨e, he⟩
    obtain ⟨a, ha, hcomplaint⟩ := List.exists_of_findSome?_eq_some (ofArguments_eq_error_iff.1 he)
    exact ⟨a, ha, e, complaint?_eq_some_iff.1 hcomplaint⟩
  · rintro ⟨a, ha, e, hfaulty⟩
    have hsome : (arguments.findSome? complaint?).isSome = true :=
      List.findSome?_isSome_iff.2 ⟨a, ha, by rw [complaint?_eq_some_iff.2 hfaulty]; rfl⟩
    obtain ⟨e', he'⟩ := Option.isSome_iff_exists.1 hsome
    exact ⟨e', ofArguments_eq_error_iff.2 he'⟩
  · obtain ⟨before, a, after, heq, ha, hbefore⟩ := List.findSome?_eq_some_iff.1 (ofArguments_eq_error_iff.1 he)
    exact ⟨before, a, after, heq, complaint?_eq_some_iff.1 ha, fun b hb => complaint?_eq_none_iff.1 (hbefore b hb)⟩
  · have hcomplaint : arguments.findSome? complaint? = none :=
      List.findSome?_eq_none_iff.2 fun a ha => complaint?_eq_none_iff.2 (hnone a ha)
    have hquiet : (asked {} arguments).quiet = true ↔ "--quiet" ∈ arguments ∨ "-q" ∈ arguments := by
      rw [quiet_asked_iff]
      exact or_iff_right Bool.false_ne_true
    have htree : (asked {} arguments).tree = true ↔ "--tree" ∈ arguments := by
      rw [tree_asked_iff]
      exact or_iff_right Bool.false_ne_true
    have hfiles : (asked {} arguments).files = arguments.filter (· ∉ flags) := List.nil_append _
    refine ⟨(asked {} arguments).withDefaultFile, by rw [ofArguments_eq, hcomplaint], ?_, hquiet, htree, rfl⟩
    rw [withDefaultFile, hfiles]
    rfl
  · rw [ofArguments_eq, ofArguments_eq, ← findSome?_withoutPlainFlags arguments', hrest, findSome?_withoutPlainFlags,
      asked_congr hrest hplain]

/-- Flags among paths, one of them a lone dash and one empty, with two choices of a colour mode; and the other flags moved and
repeated. -/
theorem ofArguments_exact_mixed :
    let arguments := ["--tree", "-", "--color=always", "a.q", "-q", "--color=never", ""]
    let arguments' := ["-", "-q", "--color=always", "a.q", "--color=never", "-q", "", "--tree", "--tree"]
    (∀ a ∈ arguments, ∀ e, ¬Faulty a e) ∧ withoutPlainFlags arguments' = withoutPlainFlags arguments ∧
      (∀ flag ∈ plainFlags, flag ∈ arguments' ↔ flag ∈ arguments) ∧
      ofArguments arguments = .ok ⟨.never, true, true, ["-", "a.q", ""]⟩ ∧ ofArguments arguments' = ofArguments arguments := by
  intro arguments arguments'
  have hclear : ∀ a ∈ arguments, ∀ e, ¬Faulty a e := by
    have hnone : ∀ a ∈ arguments, complaint? a = none := by decide
    exact fun a ha => complaint?_eq_none_iff.1 (hnone a ha)
  have hrest : withoutPlainFlags arguments' = withoutPlainFlags arguments := by decide
  have hplain : ∀ flag ∈ plainFlags, flag ∈ arguments' ↔ flag ∈ arguments := by decide
  obtain ⟨-, -, hok, hmoved⟩ := ofArguments_exact arguments
  obtain ⟨o, ho, hfiles, hquiet, htree, hcolor⟩ := hok hclear
  refine ⟨hclear, hrest, hplain, ?_, hmoved arguments' hrest hplain⟩
  have hvalue : o = ⟨.never, true, true, ["-", "a.q", ""]⟩ := by
    obtain ⟨color, quiet, tree, files⟩ := o
    obtain rfl : files = _ := hfiles
    obtain rfl : quiet = true := hquiet.2 (by decide)
    obtain rfl : tree = true := htree.2 (by decide)
    obtain rfl : color = _ := hcolor
    decide
  rw [ho, hvalue]

end Options

end QuillFrontEnd
