import QuillFrontEnd.Proofs.Following
import QuillFrontEnd.Proofs.Keywords
import QuillFrontEnd.Proofs.Language
import QuillFrontEnd.Proofs.Locality

/-!
# Well-formed trees

However broken the input is, the tree of a parse has a regular form. Each terminal is of the kind of its place, also where it is
missing, and a list has as many separators as its items call for. What is read only where its first token is next has that token:
declarations and functions have their keywords, statements their semicolons and parameter lists the type of their first parameter.

A step fills in a part of a node that may be left at any time, so what is proved of the node is proved of each step, and then of
whatever a rule makes of the node in the end. The repetitions can be left for one more reason, that nothing was consumed in a turn;
no parse ends so, and the statements about steps leave that case out.
-/

namespace QuillFrontEnd

/-! ## Well-formed nodes -/

/-- Items and commas by turns: there is at most one item more than there are commas, and there are at least `least` more. -/
structure Separated.WellFormed {α : Type} (least : Nat) (item : α → Prop) (x : Separated α) : Prop where
  items : ∀ a ∈ x.items, item a
  separators : ∀ t ∈ x.separators, t.Holds .comma
  le_length : x.separators.length + least ≤ x.items.length
  length_le : x.items.length ≤ x.separators.length + 1

/-- The keyword of a basic type is one of the two. -/
def BasicType.WellFormed (n : BasicType) : Prop := n.keyword.kind = .numberType ∨ n.keyword.kind = .booleanType

structure Extent.WellFormed (n : Extent) : Prop where
  left : n.left.kind = .leftBracket
  size : n.size.kind = .integer
  right : n.right.kind = .rightBracket

def Dimension.WellFormed (n : Dimension) : Prop := n.extent.WellFormed

/-- A type has a second dimension only if it has a first one. -/
structure TypeSpec.WellFormed (n : TypeSpec) : Prop where
  basic : n.basic.WellFormed
  first : ∀ d ∈ n.first, d.WellFormed
  second : ∀ d ∈ n.second, d.WellFormed
  inOrder : n.second.isSome → n.first.isSome

/-- A declaration has its keyword, and there may be no name after its last comma. -/
structure VarDecl.WellFormed (n : VarDecl) : Prop where
  keyword : n.keyword.Holds .var
  type : n.type.WellFormed
  names : n.names.WellFormed 0 fun t => t.kind = .identifier
  semicolon : n.semicolon.kind = .semicolon

def VarDecls.WellFormed (n : VarDecls) : Prop := ∀ d ∈ n.decls, d.WellFormed

structure Param.WellFormed (n : Param) : Prop where
  type : n.type.WellFormed
  name : n.name.kind = .identifier

/-- A parameter list has one parameter more than it has commas, and it has at least the type of the first. -/
structure ParamList.WellFormed (n : ParamList) : Prop where
  params : n.params.WellFormed 1 Param.WellFormed
  first : ∀ p ∈ n.params.items.head?, p.type.keyword.missing = false

/-- A statement has its semicolon. -/
def Statement.WellFormed (n : Statement) : Prop := n.semicolon.Holds .semicolon

structure Block.WellFormed (n : Block) : Prop where
  left : n.left.kind = .leftBrace
  statements : ∀ t ∈ n.statements, t.WellFormed
  right : n.right.kind = .rightBrace

/-- A function has its keyword. -/
structure FunctionDecl.WellFormed (n : FunctionDecl) : Prop where
  keyword : n.keyword.Holds .function
  name : n.name.kind = .identifier
  left : n.left.kind = .leftParen
  params : ∀ ps ∈ n.params, ps.WellFormed
  right : n.right.kind = .rightParen
  locals : n.locals.WellFormed
  body : n.body.WellFormed

def Functions.WellFormed (n : Functions) : Prop := ∀ d ∈ n.decls, d.WellFormed

structure MainBlock.WellFormed (n : MainBlock) : Prop where
  keyword : n.keyword.kind = .main
  block : n.block.WellFormed

structure Program.WellFormed (n : Program) : Prop where
  keyword : n.keyword.kind = .program
  name : n.name.kind = .identifier
  colon : n.colon.kind = .colon
  globals : n.globals.WellFormed
  functions : n.functions.WellFormed
  main : n.main.WellFormed
  eof : n.eof.kind = .endOfInput

/-! Nodes of which nothing has been read are well formed where nothing has to be read. -/

theorem TypeSpec.wellFormed_blank : ({} : TypeSpec).WellFormed := ⟨.inl rfl, by simp, by simp, by simp⟩

theorem VarDecls.wellFormed_blank : ({} : VarDecls).WellFormed := List.forall_mem_nil _

theorem Block.wellFormed_blank : ({} : Block).WellFormed := ⟨rfl, List.forall_mem_nil _, rfl⟩

theorem Program.wellFormed_blank : ({} : Program).WellFormed :=
  ⟨rfl, rfl, rfl, VarDecls.wellFormed_blank, List.forall_mem_nil _, ⟨rfl, Block.wellFormed_blank⟩, rfl⟩

namespace Parser

variable {ν μ : Type} {table : Table} {d : Decision} {start : TokenKind → Prop} {P Q R : ν → Prop}

/-! ## Steps and readers that keep to a form -/

/-- A step that makes nodes with one property into nodes with another, unless it goes on for ever. -/
def Forms (P Q : ν → Prop) (step : Step ν) : Prop := ∀ n s, P n → (step n s).verdict ≠ .stalled → Q (step n s).node

/-- A reader that gives nodes with a property in front of tokens of some kinds, unless it goes on for ever. -/
def Yields (start : TokenKind → Prop) (Q : ν → Prop) (reader : Reader ν) : Prop :=
  ∀ s : State, start s.nextKind → (reader s).verdict ≠ .stalled → Q (reader s).node

theorem Forms.weaken {step : Step ν} (h : Forms P Q step) (hQ : ∀ n, Q n → R n) : Forms P R step :=
  fun n s hn hv => hQ _ (h n s hn hv)

theorem Forms.nil : Forms P P (sequence []) := fun _ _ hn _ => hn

/-- The first step may establish the form that the others keep. -/
theorem Forms.cons {step : Step ν} {steps : List (Step ν)} (h : Forms P Q step) (h' : Forms Q Q (sequence steps)) :
    Forms P Q (sequence (step :: steps)) := by
  intro n s hn hv
  by_cases hm : (step n s).verdict = .matched
  · rw [sequence_cons_of_matched steps hm] at hv ⊢
    exact h' _ _ (h n s hn (by rw [hm]; exact nofun)) hv
  · rw [sequence_cons_of_ne_matched steps hm] at hv ⊢
    exact h n s hn hv

/-- A terminal that is taken or put in is of the kind of its place. -/
theorem Forms.terminal {rule : Rule} {kind : TokenKind} {follow : KindSet} {put : ν → Terminal → ν}
    (hput : ∀ n (t : Terminal), t.kind = kind → P n → P (put n t)) : Forms P P (terminal rule kind follow put) := by
  intro n s hn _
  unfold Parser.terminal readTerminal
  dsimp only
  by_cases hnext : (s.attempt (.terminal kind)).nextKind = kind
  · rw [if_pos hnext]
    exact hput n _ hnext hn
  · rw [if_neg hnext]
    by_cases hfollow : (s.attempt (.terminal kind)).nextKind ∈ follow
    · rw [if_pos hfollow]
      exact hput n _ rfl hn
    · rw [if_neg hfollow]
      exact hn

theorem Forms.child {M : μ → Prop} {reader : Reader μ} (h : Yields (fun _ => True) M reader) {put : ν → μ → ν}
    (hput : ∀ n x, M x → P n → Q (put n x)) : Forms P Q (child reader put) :=
  fun n s hn hv => hput n _ (h s trivial hv) hn

/-- A part that may be left out is read only where the table says to go in. -/
theorem Forms.optional_child {M : μ → Prop} {reader : Reader μ} (h : Yields start M reader)
    (hd : ∀ k r, table.action d k = .descend r → start k) {put : ν → μ → ν} (hput : ∀ n x, M x → P n → P (put n x)) :
    Forms P P (optional table d (Parser.child reader put)) := by
  intro n s hn hv
  unfold Parser.optional at hv ⊢
  split at hv
  · rename_i r t hc
    exact hput n _ (h t (hd _ r (action_of_choose hc).1) hv) hn
  · exact hn
  · exact hn

theorem Forms.whenDescends {steps : List (Step ν)} (h : Forms P P (sequence steps)) : Forms P P (whenDescends table d steps) := by
  intro n s hn hv
  unfold Parser.whenDescends at hv ⊢
  split at hv
  · exact h n s hn hv
  · exact hn

/-- What a rule does at the end of its phrase keeps the form of the node, if a terminator at its place does. -/
theorem form_recover [Node ν] {rule : Rule}
    (hclose : ∀ k, rule.terminator? = some k → ∀ n (t : Token), t.kind = k → P n → P (Node.close (.ofToken t) n))
    {o : Outcome ν} (h : o.verdict ≠ .stalled → P o.node) (hv : (recover rule o).verdict ≠ .stalled) : P (recover rule o).node := by
  unfold recover at hv ⊢
  split at hv
  · rename_i policy hmismatched hpolicy
    have hn := h (by rw [hmismatched]; exact nofun)
    have hterminator : rule.terminator? = policy.terminator := by simp [Rule.terminator?, hpolicy]
    unfold resynchronize
    dsimp only
    split
    · rename_i hnext
      exact hclose _ (hterminator.trans hnext) _ _ rfl hn
    · split <;> exact hn
  · exact h hv

/-- A step on a node that has the form it needs is a reader. -/
theorem Forms.yields {step : Step ν} {blank : ν} (h : Forms P P step) (hblank : P blank) : Yields (fun _ => True) P (step blank) :=
  fun s _ hv => h blank s hblank hv

/-- Steps of which the first reads a terminal that is next have this terminal from the start on. -/
theorem Forms.yields_terminal {rule : Rule} {kind : TokenKind} {follow : KindSet} {put : ν → Terminal → ν}
    {steps : List (Step ν)} {blank : ν} (h : Forms P P (sequence steps))
    (hput : ∀ t : Token, t.kind = kind → P (put blank (.ofToken t))) :
    Yields (fun k => k = kind) P (sequence (Parser.terminal rule kind follow put :: steps) blank) := by
  intro s hnext hv
  rw [sequence, terminal_of_nextKind rule follow put blank hnext] at hv ⊢
  exact h _ _ (hput _ hnext) hv

theorem Yields.child {M : μ → Prop} {reader : Reader μ} (h : Yields start M reader) {put : ν → μ → ν} {blank : ν}
    (hput : ∀ x, M x → Q (put blank x)) : Yields start Q (child reader put blank) :=
  fun s hs hv => hput _ (h s hs hv)

theorem Yields.phrase [Node ν] {rule : Rule} {blank : ν} {step : Step ν} (h : Yields start P (step blank))
    (hspan : ∀ span n, P n → P (Node.withSpan span n))
    (hclose : ∀ k, rule.terminator? = some k → ∀ n (t : Token), t.kind = k → P n → P (Node.close (.ofToken t) n)) :
    Yields start P (phrase rule blank step) :=
  fun s hs hv => hspan _ _ (form_recover hclose (h (s.attempt (.rule rule)) hs) hv)

/-- Each phrase of a repetition is read where the table says to go in. -/
theorem Yields.many {reader : Reader ν} (h : Yields start P reader) (hd : ∀ k r, table.action d k = .descend r → start k) :
    Yields (fun _ => True) (fun ns => ∀ n ∈ ns, P n) (many table d reader) := by
  intro s _ hv
  fun_induction Parser.many table d reader s with
  | case1 | case5 => exact List.forall_mem_nil _
  | case2 s r t hc o hmatched _ others ih =>
    have hfirst := h t (hd _ r (action_of_choose hc).1) (show o.verdict ≠ .stalled by simp [hmatched])
    exact List.forall_mem_cons.2 ⟨hfirst, ih hv⟩
  | case3 => exact absurd rfl hv
  | case4 s r t hc o =>
    have hfirst := h t (hd _ r (action_of_choose hc).1) hv
    simpa using hfirst

/-- Items with commas between them, if the reader of items gives one item where it succeeds and at least `least` elsewhere. -/
theorem Yields.separated {least : Nat} {item : Reader (List ν)}
    (h : Yields (fun _ => True) (fun ns => (∀ n ∈ ns, P n) ∧ least ≤ ns.length ∧ ns.length ≤ 1) item)
    (hone : ∀ s, (item s).verdict = .matched → ∃ n, (item s).node = [n])
    (hd : ∀ k j, table.action d k = .take j → k = .comma) :
    Yields (fun _ => True) (fun x => x.WellFormed least P) (separated table d item) := by
  intro s _ hv
  fun_induction Parser.separated table d item s with
  | case1 s o hmatched k hk separator _ others ih =>
    obtain ⟨hitems, hseparators, hle, hlength⟩ : others.node.WellFormed least P := ih hv
    obtain ⟨hitem, -⟩ := h s trivial (show o.verdict ≠ .stalled by simp [hmatched])
    obtain ⟨n, hn⟩ : ∃ n, o.node = [n] := hone s hmatched
    refine ⟨List.forall_mem_append.2 ⟨hitem, hitems⟩, List.forall_mem_cons.2 ⟨Terminal.holds_ofToken.2 (hd _ k hk), hseparators⟩,
      ?_, ?_⟩
    · simp only [hn, List.length_append, List.length_cons, List.length_nil]
      omega
    · simp only [hn, List.length_append, List.length_cons, List.length_nil]
      omega
  | case2 => exact absurd rfl hv
  | case3 s o hmatched =>
    obtain ⟨hitem, hle, hlength⟩ := h s trivial (show o.verdict ≠ .stalled by simp [hmatched])
    exact ⟨hitem, List.forall_mem_nil _, by simpa using hle, by simpa using hlength⟩
  | case4 s o =>
    obtain ⟨hitem, hle, hlength⟩ := h s trivial hv
    exact ⟨hitem, List.forall_mem_nil _, by simpa using hle, by simpa using hlength⟩

/-- The first items of a list are those that are read first. -/
theorem prefix_items_separated (table : Table) (d : Decision) (item : Reader (List ν)) (s : State) :
    (item s).node <+: (separated table d item s).node.items := by
  rw [separated]
  dsimp only
  split
  · split
    · split
      · exact List.prefix_append _ _
      · exact List.prefix_refl _
    · exact List.prefix_refl _
  · exact List.prefix_refl _

/-! ## Types and declarations -/

theorem yields_basicType : Yields (fun _ => True) BasicType.WellFormed (basicType .standard) := by
  refine .phrase (fun s _ _ => ?_) (fun _ _ h => h) nofun
  dsimp only
  split
  · rename_i k hk
    exact Table.basicType_of_standard hk
  · exact .inl rfl

/-- A basic type that is read in front of one of the two keywords has that keyword. -/
theorem keyword_basicType {s : State} (hnext : s.nextKind = .numberType ∨ s.nextKind = .booleanType) :
    (basicType .standard s).node.keyword = .ofToken s.lookahead := by
  obtain ⟨k, hk⟩ : ∃ k, Table.standard.action .basicType (s.attempt (.rule .basicType)).nextKind = .take k := by
    rw [State.nextKind_attempt]
    rcases hnext with h | h <;> exact ⟨_, by rw [h]; rfl⟩
  unfold basicType phrase
  rw [recover_of_no_policy rfl]
  dsimp only
  rw [hk]
  rfl

theorem yields_extent : Yields (fun _ => True) Extent.WellFormed extent := by
  refine .phrase (Forms.yields ?_ ⟨rfl, rfl, rfl⟩) (fun _ _ h => { h with }) nofun
  exact .cons (.terminal fun _ _ ht h => { h with left := ht }) <|
    .cons (.terminal fun _ _ ht h => { h with size := ht }) <| .cons (.terminal fun _ _ ht h => { h with right := ht }) .nil

theorem yields_dimension {rule : Rule} (hr : rule.terminator? = none) :
    Yields (fun _ => True) Dimension.WellFormed (dimension rule) :=
  .phrase (.child yields_extent fun _ he => he) (fun _ _ h => h) (by simp [hr])

theorem yields_typeSpec : Yields (fun _ => True) TypeSpec.WellFormed (typeSpec .standard) := by
  -- The second dimension is read only after the first one was put in the node.
  have hfirst : Forms TypeSpec.WellFormed (fun n => n.WellFormed ∧ n.first.isSome)
      (child (dimension .typeDim1) fun n d => { n with first := some d }) :=
    .child (yields_dimension rfl) fun n d hd h => ⟨⟨h.basic, by simpa using hd, h.second, fun _ => rfl⟩, rfl⟩
  have hsecond : Forms (fun n : TypeSpec => n.WellFormed ∧ n.first.isSome) (fun n => n.WellFormed ∧ n.first.isSome)
      (child (dimension .typeDim2) fun n d => { n with second := some d }) :=
    .child (yields_dimension rfl) fun n d hd h => ⟨⟨h.1.basic, h.1.first, by simpa using hd, fun _ => h.2⟩, h.2⟩
  have hextra (P : TypeSpec → Prop) : Forms P P (noExtraDimension .standard) := by
    intro n s hn _
    unfold noExtraDimension
    split <;> exact hn
  refine .phrase (Forms.yields ?_ TypeSpec.wellFormed_blank) (fun _ _ h => { h with }) nofun
  exact .cons (.child yields_basicType fun _ _ hb h => { h with basic := hb }) <|
    .cons (.whenDescends (.weaken (.cons hfirst (.cons (.whenDescends (.cons hsecond (.cons (hextra _) .nil))) .nil))
      fun _ h => h.1)) .nil

/-- A name is read or put in, or there is none. -/
theorem yields_declaredName :
    Yields (fun _ => True) (fun ns => (∀ t ∈ ns, t.kind = .identifier) ∧ 0 ≤ ns.length ∧ ns.length ≤ 1) declaredName := by
  unfold declaredName
  refine Forms.yields (.terminal fun _ t ht _ => ?_) ⟨List.forall_mem_nil _, Nat.le_refl 0, Nat.zero_le 1⟩
  exact ⟨by simpa using ht, Nat.zero_le 1, Nat.le_refl 1⟩

theorem yields_varDecl : Yields (fun k => k = .var) VarDecl.WellFormed (varDecl .standard) := by
  have hnames : Yields (fun _ => True) (fun x => x.WellFormed 0 fun t => t.kind = .identifier)
      (separated .standard .moreNames declaredName) :=
    .separated yields_declaredName declaredName_eq_singleton (take_comma_of_standard (.inl rfl))
  refine .phrase (Forms.yields_terminal ?_ fun t ht => ?_) (fun _ _ h => { h with }) ?_
  · exact .cons (.child yields_typeSpec fun _ _ ht h => { h with type := ht }) <|
      .cons (.child hnames fun _ _ hx h => { h with names := hx }) <|
      .cons (.terminal fun _ _ ht h => { h with semicolon := ht }) .nil
  · exact ⟨Terminal.holds_ofToken.2 ht, TypeSpec.wellFormed_blank,
      ⟨List.forall_mem_nil _, List.forall_mem_nil _, Nat.le_refl 0, Nat.zero_le 1⟩, rfl⟩
  · rintro _ ⟨⟩ n t ht h
    exact { h with semicolon := ht }

/-- The declarations of a program and those of a function are read in the same way. -/
theorem yields_varDecls {rule : Rule} (hr : rule.terminator? = none)
    (hd : ∀ k r, Table.standard.action d k = .descend r → k = .var) :
    Yields (fun _ => True) VarDecls.WellFormed
      (phrase rule {} (child (many .standard d (varDecl .standard)) fun n decls => { n with decls })) :=
  .phrase (.child (.many yields_varDecl hd) fun _ hx => hx) (fun _ _ h => h) (by simp [hr])

/-! ## Blocks -/

/-- The expression of a statement is empty, so a statement that is read in front of a semicolon has it. -/
theorem yields_statement : Yields (fun k => k = .semicolon) Statement.WellFormed statement := by
  refine .phrase (fun s hnext _ => ?_) (fun _ _ h => h) ?_
  · change (sequence [terminal .statement .semicolon Rule.statement.follow fun (n : Statement) t => { n with semicolon := t }]
      { expression := (expression s).node } (s.attempt (.rule .expression))).node.WellFormed
    have hsemicolon : (s.attempt (.rule .expression)).nextKind = .semicolon := hnext
    rw [sequence_singleton, terminal_of_nextKind _ _ _ _ hsemicolon]
    exact Terminal.holds_ofToken.2 hsemicolon
  · rintro _ ⟨⟩ n t ht _
    exact Terminal.holds_ofToken.2 ht

theorem yields_block : Yields (fun _ => True) Block.WellFormed (block .standard) := by
  refine .phrase (Forms.yields ?_ Block.wellFormed_blank) (fun _ _ h => { h with }) ?_
  · exact .cons (.terminal fun _ _ ht h => { h with left := ht }) <|
      .cons (.child (.many yields_statement Table.standard_orderly.moreStatements) fun _ _ hx h => { h with statements := hx }) <|
      .cons (.terminal fun _ _ ht h => { h with right := ht }) .nil
  · rintro _ ⟨⟩ n t ht h
    exact { h with right := ht }

/-! ## Functions -/

theorem yields_param : Yields (fun _ => True) Param.WellFormed (param .standard) := by
  unfold param
  refine Forms.yields ?_ ⟨.inl rfl, rfl⟩
  exact .cons (.child yields_basicType fun _ _ hb h => { h with type := hb }) <|
    .cons (.terminal fun _ _ ht h => { h with name := ht }) .nil

/-- The type of a parameter is what is read first of it. -/
theorem type_param (s : State) : (param .standard s).node.type = (basicType .standard s).node := by
  have hkeeps : Keeps Param.type (sequence [terminal .paramList .identifier (.ofList [.comma, .rightParen]) fun n t =>
      { n with name := t }]) := .cons (.terminal fun _ _ => rfl) .nil
  exact hkeeps.after {} s

theorem yields_paramList :
    Yields (fun k => k = .numberType ∨ k = .booleanType) ParamList.WellFormed (paramList .standard) := by
  have hparams : Yields (fun _ => True) (fun x => x.WellFormed 1 Param.WellFormed)
      (separated .standard .moreParams (paramItem .standard)) := by
    refine .separated (fun s _ hv => ⟨?_, Nat.le_refl 1, Nat.le_refl 1⟩) (fun s _ => ⟨_, rfl⟩) (take_comma_of_standard (.inr rfl))
    exact List.forall_mem_singleton.2 (yields_param s trivial hv)
  refine .phrase (fun s hnext hv => ⟨hparams s trivial hv, fun p hp => ?_⟩) (fun _ _ h => { h with }) (fun _ h => nomatch h)
  obtain ⟨others, hitems⟩ := prefix_items_separated .standard .moreParams (paramItem .standard) s
  have hfirst : p = (param .standard s).node := by
    rw [child, ← hitems] at hp
    exact (Option.some.inj hp).symm
  rw [hfirst, type_param, keyword_basicType hnext]
  rfl

theorem yields_functionDecl : Yields (fun k => k = .function) FunctionDecl.WellFormed (functionDecl .standard) := by
  refine .phrase (Forms.yields_terminal ?_ fun t ht => ?_) (fun _ _ h => { h with }) (fun _ h => nomatch h)
  · have hparams : ∀ k r, Table.standard.action .anyParams k = .descend r → k = .numberType ∨ k = .booleanType := by
      intro k r h
      cases k <;> first | exact .inl rfl | exact .inr rfl | cases h
    exact .cons (.terminal fun _ _ ht h => { h with name := ht }) <| .cons (.terminal fun _ _ ht h => { h with left := ht }) <|
      .cons (.optional_child yields_paramList hparams fun _ _ hx h => { h with params := by simpa using hx }) <|
      .cons (.terminal fun _ _ ht h => { h with right := ht }) <|
      .cons (.child (yields_varDecls rfl Table.standard_orderly.moreLocals) fun _ _ hx h => { h with locals := hx }) <|
      .cons (.child yields_block fun _ _ hx h => { h with body := hx }) .nil
  · exact ⟨Terminal.holds_ofToken.2 ht, rfl, rfl, by simp, rfl, VarDecls.wellFormed_blank, Block.wellFormed_blank⟩

theorem yields_functions : Yields (fun _ => True) Functions.WellFormed (functions .standard) :=
  .phrase (.child (.many yields_functionDecl Table.standard_orderly.moreFunctions) fun _ hx => hx) (fun _ _ h => h) nofun

/-! ## Programs -/

theorem yields_mainBlock : Yields (fun _ => True) MainBlock.WellFormed (mainBlock .standard) := by
  refine .phrase (Forms.yields ?_ ⟨rfl, Block.wellFormed_blank⟩) (fun _ _ h => { h with }) nofun
  exact .cons (.terminal fun _ _ ht h => { h with keyword := ht }) <|
    .cons (.child yields_block fun _ _ hx h => { h with block := hx }) .nil

theorem forms_header : Forms Program.WellFormed Program.WellFormed header := by
  have hsteps : Forms Program.WellFormed Program.WellFormed (sequence headerSteps) :=
    .cons (.terminal fun _ _ ht h => { h with keyword := ht }) <| .cons (.terminal fun _ _ ht h => { h with name := ht }) <|
      .cons (.terminal fun _ _ ht h => { h with colon := ht }) .nil
  intro n s hn hv
  unfold header restart at hv ⊢
  dsimp only at hv ⊢
  split at hv
  · rename_i hmismatched
    have hnode := hsteps n s hn (by rw [hmismatched]; exact nofun)
    split <;> exact hnode
  · exact hsteps n s hn hv

theorem forms_mainStep : Forms Program.WellFormed Program.WellFormed (mainStep .standard) := by
  have hmain : Forms Program.WellFormed Program.WellFormed
      (child (mainBlock .standard) fun n (m : MainBlock) => { n with main := m }) :=
    .child yields_mainBlock fun _ _ hx h => { h with main := hx }
  intro n s hn hv
  unfold mainStep at hv ⊢
  dsimp only at hv ⊢
  split at hv
  · rename_i hmismatched
    exact hmain n s hn (by rw [hmismatched]; exact nofun)
  · exact hmain n s hn hv

theorem forms_nothingLeft : Forms Program.WellFormed Program.WellFormed nothingLeft := by
  intro n s hn _
  unfold nothingLeft
  split <;> exact hn

theorem forms_programSteps : Forms Program.WellFormed Program.WellFormed (sequence (programSteps .standard)) :=
  .cons forms_header <|
    .cons (.child (yields_varDecls rfl Table.standard_orderly.moreGlobals) fun _ _ hx h => { h with globals := hx }) <|
    .cons (.child yields_functions fun _ _ hx h => { h with functions := hx }) <| .cons forms_mainStep <|
    .cons forms_nothingLeft .nil

end Parser

open QuillFrontEnd.Parser

/-- The tree of every parse is well formed. -/
theorem tree_wellFormed (ts : TokenList) : (parse ts).tree.WellFormed := by
  obtain ⟨-, -, -, -, -, -, hv, heof, -⟩ := parseWith_run Table.standard_orderly ts
  obtain ⟨-, hverdict, span, hnode⟩ := program_eq .standard (.initial ts)
  have hparts := forms_programSteps {} ((State.initial ts).attempt (.rule .start)) Program.wellFormed_blank
    (by rw [← hverdict]; exact hv)
  have hend : (parse ts).tree.eof.kind = .endOfInput := by
    rw [parse, heof]
    exact ts.kind_sentinel
  have htree : (parse ts).tree = (program .standard (.initial ts)).node := rfl
  rw [htree] at hend ⊢
  rw [hnode] at hend ⊢
  exact { hparts with eof := hend }

end QuillFrontEnd
