import QuillFrontEnd.Proofs.Derivation
import QuillFrontEnd.Proofs.Leaves
import Mathlib.Tactic.MkIffOfInductiveProp

/-!
# Complete trees

A tree is complete if no terminal is missing in it, each is of the kind of its place, and there is one item more than there are
separators in each list. The kinds of the terminals of complete trees are what the grammar derives: for each rule, a sequence of
tokens is a phrase of the rule if and only if there is a complete node with these tokens as its terminals.
-/

namespace QuillFrontEnd

/-! ## Completeness -/

/-- A terminal that was taken for a token of a kind. -/
def Terminal.Holds (k : TokenKind) (t : Terminal) : Prop := t.missing = false ∧ t.kind = k

instance (k : TokenKind) (t : Terminal) : Decidable (t.Holds k) := inferInstanceAs (Decidable (_ ∧ _))

theorem Terminal.holds_ofToken {k : TokenKind} {t : Token} : (ofToken t).Holds k ↔ t.kind = k := by
  simp [Holds, ofToken]

theorem Terminal.Holds.ofToken_toToken {k : TokenKind} {t : Terminal} (h : t.Holds k) : ofToken t.toToken = t := by
  obtain ⟨token, missing⟩ := t
  obtain ⟨rfl, -⟩ := h
  rfl

@[simp] theorem Terminal.Holds.token? {k : TokenKind} {t : Terminal} (h : t.Holds k) : t.token? = some t.toToken := by
  simp [Terminal.token?, h.1]

/-- Items with a comma between any two of them, and at least one item. -/
@[mk_iff]
structure Separated.Complete {α : Type} (item : α → Prop) (x : Separated α) : Prop where
  length : x.items.length = x.separators.length + 1
  items : ∀ a ∈ x.items, item a
  separators : ∀ t ∈ x.separators, t.Holds .comma

def BasicType.Complete (n : BasicType) : Prop := n.keyword.Holds .numberType ∨ n.keyword.Holds .booleanType

@[mk_iff]
structure Extent.Complete (n : Extent) : Prop where
  left : n.left.Holds .leftBracket
  size : n.size.Holds .integer
  right : n.right.Holds .rightBracket

def Dimension.Complete (n : Dimension) : Prop := n.extent.Complete

/-- A complete type has a second dimension only if it has a first one. -/
@[mk_iff]
structure TypeSpec.Complete (n : TypeSpec) : Prop where
  basic : n.basic.Complete
  first : ∀ d ∈ n.first, d.Complete
  second : ∀ d ∈ n.second, d.Complete
  inOrder : n.second.isSome → n.first.isSome

@[mk_iff]
structure VarDecl.Complete (n : VarDecl) : Prop where
  keyword : n.keyword.Holds .var
  type : n.type.Complete
  names : n.names.Complete (Terminal.Holds .identifier)
  semicolon : n.semicolon.Holds .semicolon

def VarDecls.Complete (n : VarDecls) : Prop := ∀ d ∈ n.decls, d.Complete

@[mk_iff]
structure Param.Complete (n : Param) : Prop where
  type : n.type.Complete
  name : n.name.Holds .identifier

def ParamList.Complete (n : ParamList) : Prop := n.params.Complete Param.Complete

def Statement.Complete (n : Statement) : Prop := n.semicolon.Holds .semicolon

@[mk_iff]
structure Block.Complete (n : Block) : Prop where
  left : n.left.Holds .leftBrace
  statements : ∀ t ∈ n.statements, t.Complete
  right : n.right.Holds .rightBrace

@[mk_iff]
structure FunctionDecl.Complete (n : FunctionDecl) : Prop where
  keyword : n.keyword.Holds .function
  name : n.name.Holds .identifier
  left : n.left.Holds .leftParen
  params : ∀ ps ∈ n.params, ps.Complete
  right : n.right.Holds .rightParen
  locals : n.locals.Complete
  body : n.body.Complete

def Functions.Complete (n : Functions) : Prop := ∀ d ∈ n.decls, d.Complete

@[mk_iff]
structure MainBlock.Complete (n : MainBlock) : Prop where
  keyword : n.keyword.Holds .main
  block : n.block.Complete

@[mk_iff]
structure Program.Complete (n : Program) : Prop where
  keyword : n.keyword.Holds .program
  name : n.name.Holds .identifier
  colon : n.colon.Holds .colon
  globals : n.globals.Complete
  functions : n.functions.Complete
  main : n.main.Complete
  eof : n.eof.Holds .endOfInput

section

variable {α : Type}

instance (item : α → Prop) [DecidablePred item] (x : Separated α) : Decidable (x.Complete item) :=
  decidable_of_iff _ (Separated.complete_iff item x).symm

instance (n : BasicType) : Decidable n.Complete := inferInstanceAs (Decidable (_ ∨ _))
instance (n : Extent) : Decidable n.Complete := decidable_of_iff _ n.complete_iff.symm
instance (n : Dimension) : Decidable n.Complete := inferInstanceAs (Decidable n.extent.Complete)
instance (n : TypeSpec) : Decidable n.Complete := decidable_of_iff _ n.complete_iff.symm
instance (n : VarDecl) : Decidable n.Complete := decidable_of_iff _ n.complete_iff.symm
instance (n : VarDecls) : Decidable n.Complete := inferInstanceAs (Decidable (∀ d ∈ n.decls, d.Complete))
instance (n : Param) : Decidable n.Complete := decidable_of_iff _ n.complete_iff.symm
instance (n : ParamList) : Decidable n.Complete := inferInstanceAs (Decidable (n.params.Complete Param.Complete))
instance (n : Statement) : Decidable n.Complete := inferInstanceAs (Decidable (n.semicolon.Holds .semicolon))
instance (n : Block) : Decidable n.Complete := decidable_of_iff _ n.complete_iff.symm
instance (n : FunctionDecl) : Decidable n.Complete := decidable_of_iff _ n.complete_iff.symm
instance (n : Functions) : Decidable n.Complete := inferInstanceAs (Decidable (∀ d ∈ n.decls, d.Complete))
instance (n : MainBlock) : Decidable n.Complete := decidable_of_iff _ n.complete_iff.symm
instance (n : Program) : Decidable n.Complete := decidable_of_iff _ n.complete_iff.symm

end

/-! ## Nodes without their spans -/

/-- The items, each changed in the same way, with the same separators. -/
def Separated.map {α β : Type} (f : α → β) (x : Separated α) : Separated β := ⟨x.items.map f, x.separators⟩

/-! The node with its span, and the spans of the nodes in it, set to zero. The terminals keep theirs. -/

def BasicType.bare (n : BasicType) : BasicType := { n with span := .zero }

def Extent.bare (n : Extent) : Extent := { n with span := .zero }

def Dimension.bare (n : Dimension) : Dimension := { extent := n.extent.bare }

def TypeSpec.bare (n : TypeSpec) : TypeSpec where
  basic := n.basic.bare
  first := n.first.map Dimension.bare
  second := n.second.map Dimension.bare

def VarDecl.bare (n : VarDecl) : VarDecl := { n with type := n.type.bare, span := .zero }

def VarDecls.bare (n : VarDecls) : VarDecls := { decls := n.decls.map VarDecl.bare }

def Param.bare (n : Param) : Param := { n with type := n.type.bare }

def ParamList.bare (n : ParamList) : ParamList := { params := n.params.map Param.bare }

def Expression.bare (_ : Expression) : Expression := {}

def Statement.bare (n : Statement) : Statement := { n with expression := n.expression.bare, span := .zero }

def Block.bare (n : Block) : Block := { n with statements := n.statements.map Statement.bare, span := .zero }

def FunctionDecl.bare (n : FunctionDecl) : FunctionDecl :=
  { n with params := n.params.map ParamList.bare, locals := n.locals.bare, body := n.body.bare, span := .zero }

def Functions.bare (n : Functions) : Functions := { decls := n.decls.map FunctionDecl.bare }

def MainBlock.bare (n : MainBlock) : MainBlock := { n with block := n.block.bare, span := .zero }

def Program.bare (n : Program) : Program :=
  { n with globals := n.globals.bare, functions := n.functions.bare, main := n.main.bare, span := .zero }

/-! Whether a node is complete does not depend on spans. -/

@[simp] theorem BasicType.complete_bare (n : BasicType) : n.bare.Complete ↔ n.Complete := Iff.rfl

@[simp] theorem Dimension.complete_bare (n : Dimension) : n.bare.Complete ↔ n.Complete := by
  simp [Dimension.Complete, Dimension.bare, Extent.complete_iff, Extent.bare]

@[simp] theorem TypeSpec.complete_bare (n : TypeSpec) : n.bare.Complete ↔ n.Complete := by
  simp [TypeSpec.complete_iff, TypeSpec.bare]

@[simp] theorem VarDecl.complete_bare (n : VarDecl) : n.bare.Complete ↔ n.Complete := by
  simp [VarDecl.complete_iff, VarDecl.bare]

@[simp] theorem VarDecls.complete_bare (n : VarDecls) : n.bare.Complete ↔ n.Complete := by
  simp [VarDecls.Complete, VarDecls.bare]

@[simp] theorem ParamList.complete_bare (n : ParamList) : n.bare.Complete ↔ n.Complete := by
  simp [ParamList.Complete, ParamList.bare, Separated.complete_iff, Separated.map, Param.complete_iff, Param.bare]

@[simp] theorem Block.complete_bare (n : Block) : n.bare.Complete ↔ n.Complete := by
  simp [Block.complete_iff, Block.bare, Statement.Complete, Statement.bare]

@[simp] theorem FunctionDecl.complete_bare (n : FunctionDecl) : n.bare.Complete ↔ n.Complete := by
  simp [FunctionDecl.complete_iff, FunctionDecl.bare]

@[simp] theorem Program.complete_bare (n : Program) : n.bare.Complete ↔ n.Complete := by
  simp [Program.complete_iff, Program.bare, Functions.Complete, Functions.bare, MainBlock.complete_iff, MainBlock.bare]

/-! ## Complete nodes are phrases -/

/-- The complete nodes of a type are the phrases of a pattern: tokens are a phrase exactly if they are the terminals of a complete
node. -/
def Realized {α : Type} (p : Pattern) (complete : α → Prop) (leaves : α → List Terminal) : Prop :=
  ∀ ts : List Token, Derives p (ts.map Token.kind) ↔ ∃ n, complete n ∧ takenTokens (leaves n) = ts

namespace Realized

variable {α β : Type} {p q : Pattern} {r : Rule} {C : α → Prop} {L : α → List Terminal} {C' : β → Prop}
  {L' : β → List Terminal}

theorem token (k : TokenKind) : Realized (.token k) (Terminal.Holds k) fun t => [t] := by
  intro ts
  rw [Derives.token_iff, List.map_eq_singleton_iff]
  constructor
  · intro hx
    obtain ⟨t, rfl, ht⟩ := hx
    exact ⟨.ofToken t, Terminal.holds_ofToken.2 ht, by simp⟩
  · intro hx
    obtain ⟨t, ht, rfl⟩ := hx
    exact ⟨t.toToken, by simp [ht.token?], ht.2⟩

theorem append (h : Realized p C L) (h' : Realized q C' L') :
    Realized (.append p q) (fun x : α × β => C x.1 ∧ C' x.2) fun x => L x.1 ++ L' x.2 := by
  intro ts
  rw [Derives.append_iff]
  constructor
  · intro hx
    obtain ⟨u, v, huv, hu, hv⟩ := hx
    obtain ⟨us, vs, rfl, rfl, rfl⟩ := List.map_eq_append_iff.1 huv
    obtain ⟨a, ha, rfl⟩ := (h us).1 hu
    obtain ⟨b, hb, rfl⟩ := (h' vs).1 hv
    exact ⟨(a, b), ⟨ha, hb⟩, takenTokens_append _ _⟩
  · intro hx
    obtain ⟨⟨a, b⟩, ⟨ha, hb⟩, rfl⟩ := hx
    rw [takenTokens_append, List.map_append]
    exact ⟨_, _, rfl, (h _).2 ⟨a, ha, rfl⟩, (h' _).2 ⟨b, hb, rfl⟩⟩

theorem optional (h : Realized p C L) :
    Realized (.optional p) (fun o : Option α => ∀ n ∈ o, C n) fun o => o.toList.flatMap L := by
  intro ts
  rw [Pattern.optional, Derives.either_iff, h ts, Derives.empty_iff, List.map_eq_nil_iff]
  constructor
  · intro hx
    rcases hx with ⟨a, ha, rfl⟩ | rfl
    · exact ⟨some a, by simpa using ha, by simp⟩
    · exact ⟨none, by simp, rfl⟩
  · intro hx
    rcases hx with ⟨_ | a, ha, rfl⟩
    · exact .inr rfl
    · exact .inl ⟨a, ha a rfl, by simp⟩

theorem repeated (h : Realized p C L) :
    Realized (.repeated p) (fun ns : List α => ∀ n ∈ ns, C n) fun ns => ns.flatMap L := by
  intro ts
  constructor
  · intro hd
    obtain ⟨ws, hws, hall⟩ := Derives.repeated_iff.1 hd
    induction ws generalizing ts with
    | nil =>
      rw [List.flatten_nil, List.map_eq_nil_iff] at hws
      exact ⟨[], by simp, hws.symm⟩
    | cons w ws ih =>
      rw [List.forall_mem_cons] at hall
      obtain ⟨us, vs, rfl, rfl, hvs⟩ := List.map_eq_append_iff.1 (hws.trans List.flatten_cons)
      obtain ⟨a, ha, rfl⟩ := (h us).1 hall.1
      obtain ⟨as, has, rfl⟩ := ih vs (Derives.repeated_iff.2 ⟨ws, hvs, hall.2⟩) hvs hall.2
      exact ⟨a :: as, List.forall_mem_cons.2 ⟨ha, has⟩, by simp⟩
  · intro hx
    obtain ⟨as, has, rfl⟩ := hx
    induction as with
    | nil => exact .none
    | cons a as ih =>
      rw [List.forall_mem_cons] at has
      dsimp only
      rw [List.flatMap_cons, takenTokens_append, List.map_append]
      exact .more ((h _).2 ⟨a, has.1, rfl⟩) (ih has.2)

theorem phrase (h : Realized r.production C L) : Realized (.phrase r) C L := by
  intro ts
  rw [Derives.phrase_iff]
  exact h ts

/-- Nodes of one type stand for nodes of another, with the same terminals. -/
theorem map (h : Realized p C L) (f : α → β) (g : β → α)
    (hf : ∀ a, C a → C' (f a) ∧ takenTokens (L' (f a)) = takenTokens (L a))
    (hg : ∀ b, C' b → C (g b) ∧ takenTokens (L (g b)) = takenTokens (L' b)) : Realized p C' L' := by
  intro ts
  rw [h ts]
  constructor
  · intro hx
    obtain ⟨a, ha, rfl⟩ := hx
    exact ⟨f a, hf a ha⟩
  · intro hx
    obtain ⟨b, hb, rfl⟩ := hx
    exact ⟨g b, hg b hb⟩

end Realized

theorem realized_basicType : Realized (.phrase .basicType) BasicType.Complete fun n => n.element.leaves := by
  refine .phrase fun ts => ?_
  rw [Rule.production, Derives.either_iff, Realized.token .numberType ts, Realized.token .booleanType ts]
  constructor
  · intro hx
    rcases hx with ⟨t, ht, hts⟩ | ⟨t, ht, hts⟩
    · exact ⟨{ keyword := t }, .inl ht, hts⟩
    · exact ⟨{ keyword := t }, .inr ht, hts⟩
  · intro hx
    rcases hx with ⟨n, hn | hn, hts⟩
    · exact .inl ⟨n.keyword, hn, hts⟩
    · exact .inr ⟨n.keyword, hn, hts⟩

theorem realized_extent : Realized (.phrase .dimDecl) Extent.Complete fun n => n.element.leaves := by
  refine .phrase ((Realized.token _).append ((Realized.token _).append (.token _)) |>.map
    (fun x => { left := x.1, size := x.2.1, right := x.2.2 }) (fun n => (n.left, n.size, n.right)) ?_ ?_)
  · rintro ⟨l, i, r⟩ ⟨hl, hi, hr⟩
    exact ⟨⟨hl, hi, hr⟩, by simp⟩
  · rintro n ⟨hl, hi, hr⟩
    exact ⟨⟨hl, hi, hr⟩, by simp⟩

theorem realized_dimension {rule : Rule} (hr : rule.production = .phrase .dimDecl) :
    Realized (.phrase rule) Dimension.Complete fun n => n.extent.element.leaves := by
  refine .phrase (hr ▸ realized_extent.map (fun e => { extent := e }) (fun n => n.extent) ?_ ?_)
  · exact fun e he => ⟨he, rfl⟩
  · exact fun n hn => ⟨hn, rfl⟩

/-- The production of types also allows a second dimension without a first one. As a phrase that is the same as a first dimension
by itself, and so it is in the node. -/
theorem realized_typeSpec : Realized (.phrase .type) TypeSpec.Complete fun n => n.element.leaves := by
  have h := realized_basicType.append ((realized_dimension rfl : Realized (.phrase .typeDim1) _ _).optional.append
    (realized_dimension rfl : Realized (.phrase .typeDim2) _ _).optional)
  refine .phrase (h.map (fun x => { basic := x.1, first := x.2.1.or x.2.2, second := x.2.1.bind fun _ => x.2.2 })
    (fun n => (n.basic, n.first, n.second)) ?_ ?_)
  · intro x hx
    obtain ⟨hb, hd, he⟩ := hx
    rcases x with ⟨b, _ | d, _ | e⟩
    · exact ⟨⟨hb, by simp, by simp, by simp⟩, by simp [TypeSpec.leaves_element]⟩
    · exact ⟨⟨hb, by simpa using he, by simp, by simp⟩, by simp [TypeSpec.leaves_element]⟩
    · exact ⟨⟨hb, by simpa using hd, by simp, by simp⟩, by simp [TypeSpec.leaves_element]⟩
    · exact ⟨⟨hb, by simpa using hd, by simpa using he, by simp⟩, by simp [TypeSpec.leaves_element]⟩
  · rintro n ⟨hb, hd, he, -⟩
    exact ⟨⟨hb, hd, he⟩, by rw [TypeSpec.leaves_element]; rfl⟩

namespace Separated

variable {α : Type}

/-- An item, and each separator with the item after it. -/
def ofPairs (x : α × List (Terminal × α)) : Separated α := ⟨x.1 :: x.2.map Prod.snd, x.2.map Prod.fst⟩

theorem leaves_ofPairs (item : α → List Terminal) (a : α) (xs : List (Terminal × α)) :
    (ofPairs (a, xs)).leaves item = item a ++ xs.flatMap fun x => x.1 :: item x.2 := by
  induction xs generalizing a with
  | nil => rfl
  | cons x xs ih =>
    have h := ih x.2
    simp only [ofPairs, leaves, List.map_cons, interleave] at h ⊢
    rw [h]
    simp

/-- A complete list is made of such pairs. -/
theorem Complete.exists_pairs {C : α → Prop} {x : Separated α} (h : x.Complete C) :
    ∃ a xs, x = ofPairs (a, xs) ∧ C a ∧ ∀ y ∈ xs, y.1.Holds .comma ∧ C y.2 := by
  obtain ⟨_ | ⟨a, as⟩, ts⟩ := x
  · exact absurd h.length (by simp)
  have hlen : ts.length = as.length := by simpa using h.length.symm
  refine ⟨a, ts.zip as, ?_, h.items a (by simp), fun y hy => ?_⟩
  · rw [ofPairs, List.map_fst_zip (Nat.le_of_eq hlen), List.map_snd_zip (Nat.le_of_eq hlen.symm)]
  · obtain ⟨h1, h2⟩ := List.of_mem_zip hy
    exact ⟨h.separators _ h1, h.items _ (by simp [h2])⟩

theorem complete_ofPairs {C : α → Prop} {a : α} {xs : List (Terminal × α)} (ha : C a)
    (hxs : ∀ y ∈ xs, y.1.Holds .comma ∧ C y.2) : (ofPairs (a, xs)).Complete C := by
  refine ⟨by simp [ofPairs], ?_, ?_⟩
  · intro b hb
    simp only [ofPairs, List.mem_cons, List.mem_map] at hb
    rcases hb with rfl | ⟨y, hy, rfl⟩
    · exact ha
    · exact (hxs y hy).2
  · intro t ht
    simp only [ofPairs, List.mem_map] at ht
    obtain ⟨y, hy, rfl⟩ := ht
    exact (hxs y hy).1

end Separated

theorem Realized.separated {α : Type} {p : Pattern} {C : α → Prop} {L : α → List Terminal} (h : Realized p C L) :
    Realized (.append p (.repeated (.append (.token .comma) p))) (Separated.Complete C) (Separated.leaves L) := by
  intro ts
  rw [(h.append ((Realized.token .comma).append h).repeated) ts]
  constructor
  · intro hx
    obtain ⟨⟨a, xs⟩, ⟨ha, hxs⟩, rfl⟩ := hx
    exact ⟨.ofPairs (a, xs), Separated.complete_ofPairs ha hxs, by rw [Separated.leaves_ofPairs]; rfl⟩
  · intro hx
    obtain ⟨x, hx, rfl⟩ := hx
    obtain ⟨a, xs, rfl, ha, hxs⟩ := hx.exists_pairs
    exact ⟨(a, xs), ⟨ha, hxs⟩, by rw [Separated.leaves_ofPairs]; rfl⟩

/-- Patterns in a row may be put in brackets in either way. -/
theorem Realized.assoc {α : Type} {p q p' : Pattern} {C : α → Prop} {L : α → List Terminal}
    (h : Realized (.append (.append p q) p') C L) : Realized (.append p (.append q p')) C L := by
  intro ts
  rw [← h ts, Derives.append_assoc_iff]

theorem realized_varDecl : Realized (.phrase .varDecl) VarDecl.Complete fun n => n.element.leaves := by
  have names := (Realized.token .identifier).separated.append (.token .semicolon)
  refine .phrase ((Realized.token _).append (realized_typeSpec.append names.assoc) |>.map
    (fun x => { keyword := x.1, type := x.2.1, names := x.2.2.1, semicolon := x.2.2.2 })
    (fun n => (n.keyword, n.type, n.names, n.semicolon)) ?_ ?_)
  · rintro ⟨k, t, ns, c⟩ ⟨hk, ht, hns, hc⟩
    exact ⟨⟨hk, ht, hns, hc⟩, by rw [VarDecl.leaves_element]; rfl⟩
  · rintro n ⟨hk, ht, hns, hc⟩
    exact ⟨⟨hk, ht, hns, hc⟩, by rw [VarDecl.leaves_element]; rfl⟩

/-- The declarations of a program and those of a function have the same production. -/
theorem realized_varDecls {rule : Rule} (hr : rule.production = .repeated (.phrase .varDecl)) :
    Realized (.phrase rule) VarDecls.Complete fun n => (n.element rule).leaves := by
  refine .phrase (hr ▸ realized_varDecl.repeated.map (fun ds => { decls := ds }) (fun n => n.decls) ?_ ?_)
  · exact fun ds hds => ⟨hds, by rw [VarDecls.leaves_element]⟩
  · exact fun n hn => ⟨hn, by rw [VarDecls.leaves_element]⟩

/-- The expression of a statement is empty. -/
theorem realized_statement : Realized (.phrase .statement) Statement.Complete fun n => n.element.leaves := by
  have expression : Derives (.phrase .expression) [] := .phrase .empty
  have semicolon : Realized (.token .semicolon) Statement.Complete fun n => n.element.leaves :=
    (Realized.token .semicolon).map (fun t => { semicolon := t }) Statement.semicolon (fun t ht => ⟨ht, rfl⟩)
      (fun n hn => ⟨hn, rfl⟩)
  refine .phrase fun ts => ?_
  rw [← semicolon ts]
  constructor
  · intro h
    obtain ⟨u, v, huv, hu, hv⟩ := Derives.append_iff.1 h
    rwa [huv, Derives.empty_iff.1 (Derives.phrase_iff.1 hu)]
  · exact fun h => .append expression h

theorem realized_block : Realized (.phrase .block) Block.Complete fun n => n.element.leaves := by
  refine .phrase ((Realized.token _).append (realized_statement.repeated.append (.token _)) |>.map
    (fun x => { left := x.1, statements := x.2.1, right := x.2.2 }) (fun n => (n.left, n.statements, n.right)) ?_ ?_)
  · rintro ⟨l, ss, r⟩ ⟨hl, hss, hr⟩
    exact ⟨⟨hl, hss, hr⟩, by rw [Block.leaves_element]; rfl⟩
  · rintro n ⟨hl, hss, hr⟩
    exact ⟨⟨hl, hss, hr⟩, by rw [Block.leaves_element]; rfl⟩

theorem realized_paramList : Realized (.phrase .paramList) ParamList.Complete fun n => n.element.leaves := by
  have param : Realized (.append (.phrase .basicType) (.token .identifier)) Param.Complete Param.leaves :=
    (realized_basicType.append (.token _)).map (fun x => { type := x.1, name := x.2 }) (fun n => (n.type, n.name))
      (fun x hx => ⟨⟨hx.1, hx.2⟩, rfl⟩) (fun n hn => ⟨⟨hn.type, hn.name⟩, rfl⟩)
  refine .phrase (param.separated.assoc.map (fun ps => { params := ps }) (fun n => n.params) ?_ ?_)
  · exact fun ps hps => ⟨hps, by rw [ParamList.leaves_element]⟩
  · exact fun n hn => ⟨hn, by rw [ParamList.leaves_element]⟩

theorem realized_functionDecl : Realized (.phrase .functionDecls) FunctionDecl.Complete fun n => n.element.leaves := by
  refine .phrase ((Realized.token _).append ((Realized.token _).append ((Realized.token _).append
    (realized_paramList.optional.append ((Realized.token _).append ((realized_varDecls rfl).append realized_block))))) |>.map
    (fun x => { keyword := x.1, name := x.2.1, left := x.2.2.1, params := x.2.2.2.1, right := x.2.2.2.2.1,
                locals := x.2.2.2.2.2.1, body := x.2.2.2.2.2.2 })
    (fun n => (n.keyword, n.name, n.left, n.params, n.right, n.locals, n.body)) ?_ ?_)
  · rintro ⟨k, i, l, ps, r, vs, b⟩ ⟨hk, hi, hl, hps, hr, hvs, hb⟩
    exact ⟨⟨hk, hi, hl, hps, hr, hvs, hb⟩, by rw [FunctionDecl.leaves_element]; rfl⟩
  · rintro n ⟨hk, hi, hl, hps, hr, hvs, hb⟩
    exact ⟨⟨hk, hi, hl, hps, hr, hvs, hb⟩, by rw [FunctionDecl.leaves_element]; rfl⟩

theorem realized_functions : Realized (.phrase .functions) Functions.Complete fun n => n.element.leaves := by
  refine .phrase (realized_functionDecl.repeated.map (fun ds => { decls := ds }) (fun n => n.decls) ?_ ?_)
  · exact fun ds hds => ⟨hds, by rw [Functions.leaves_element]⟩
  · exact fun n hn => ⟨hn, by rw [Functions.leaves_element]⟩

theorem realized_mainBlock : Realized (.phrase .main) MainBlock.Complete fun n => n.element.leaves := by
  refine .phrase ((Realized.token _).append realized_block |>.map
    (fun x => { keyword := x.1, block := x.2 }) (fun n => (n.keyword, n.block)) ?_ ?_)
  · rintro ⟨k, b⟩ ⟨hk, hb⟩
    exact ⟨⟨hk, hb⟩, by rw [MainBlock.leaves_element]; rfl⟩
  · rintro n ⟨hk, hb⟩
    exact ⟨⟨hk, hb⟩, by rw [MainBlock.leaves_element]; rfl⟩

/-- The programs of the grammar are the complete trees. -/
theorem realized_program : Realized (.phrase .start) Program.Complete fun n => n.element.leaves := by
  refine .phrase ((Realized.token _).append ((Realized.token _).append ((Realized.token _).append
    ((realized_varDecls rfl).append (realized_functions.append (realized_mainBlock.append (.token _)))))) |>.map
    (fun x => { keyword := x.1, name := x.2.1, colon := x.2.2.1, globals := x.2.2.2.1, functions := x.2.2.2.2.1,
                main := x.2.2.2.2.2.1, eof := x.2.2.2.2.2.2 })
    (fun n => (n.keyword, n.name, n.colon, n.globals, n.functions, n.main, n.eof)) ?_ ?_)
  · rintro ⟨k, i, c, vs, fs, m, e⟩ ⟨hk, hi, hc, hvs, hfs, hm, he⟩
    exact ⟨⟨hk, hi, hc, hvs, hfs, hm, he⟩, by rw [Program.leaves_element]; rfl⟩
  · rintro n ⟨hk, hi, hc, hvs, hfs, hm, he⟩
    exact ⟨⟨hk, hi, hc, hvs, hfs, hm, he⟩, by rw [Program.leaves_element]; rfl⟩

/-! ## No terminal of a complete node is missing -/

/-- Terminals of which none is missing. -/
def AllTaken (ts : List Terminal) : Prop := ∀ t ∈ ts, t.missing = false

@[simp] theorem allTaken_nil : AllTaken [] := by simp [AllTaken]

@[simp] theorem allTaken_cons {t : Terminal} {ts : List Terminal} : AllTaken (t :: ts) ↔ t.missing = false ∧ AllTaken ts :=
  List.forall_mem_cons

@[simp] theorem allTaken_append {ts us : List Terminal} : AllTaken (ts ++ us) ↔ AllTaken ts ∧ AllTaken us :=
  List.forall_mem_append

theorem allTaken_flatMap {α : Type} {leaves : α → List Terminal} {as : List α} (h : ∀ a ∈ as, AllTaken (leaves a)) :
    AllTaken (as.flatMap leaves) := by
  intro t ht
  obtain ⟨a, ha, hta⟩ := List.mem_flatMap.1 ht
  exact h a ha t hta

/-- The tokens of terminals of which none is missing are those of each of them. -/
theorem AllTaken.takenTokens_eq {ts : List Terminal} (h : AllTaken ts) : takenTokens ts = ts.map Terminal.toToken := by
  induction ts with
  | nil => rfl
  | cons t ts ih =>
    rw [allTaken_cons] at h
    rw [takenTokens_cons, ih h.2, Terminal.token?, h.1]
    rfl

theorem BasicType.Complete.allTaken {n : BasicType} (h : n.Complete) : AllTaken n.element.leaves := by
  rcases h with h | h
  · simpa using h.1
  · simpa using h.1

theorem Dimension.allTaken_leaves? {o : Option Dimension} (h : ∀ d ∈ o, d.Complete) : AllTaken (Dimension.leaves? o) := by
  cases o with
  | none => simp
  | some d =>
    obtain ⟨hl, hi, hr⟩ := h d rfl
    simp [hl.1, hi.1, hr.1]

theorem TypeSpec.Complete.allTaken {n : TypeSpec} (h : n.Complete) : AllTaken n.element.leaves := by
  rw [TypeSpec.leaves_element, allTaken_append, allTaken_append]
  exact ⟨h.basic.allTaken, Dimension.allTaken_leaves? h.first, Dimension.allTaken_leaves? h.second⟩

theorem Separated.Complete.allTaken {α : Type} {C : α → Prop} {leaves : α → List Terminal}
    (hitem : ∀ a, C a → AllTaken (leaves a)) {x : Separated α} (h : x.Complete C) : AllTaken (x.leaves leaves) := by
  obtain ⟨a, xs, rfl, ha, hxs⟩ := h.exists_pairs
  rw [Separated.leaves_ofPairs, allTaken_append]
  refine ⟨hitem a ha, allTaken_flatMap fun y hy => ?_⟩
  rw [allTaken_cons]
  exact ⟨(hxs y hy).1.1, hitem _ (hxs y hy).2⟩

theorem VarDecl.Complete.allTaken {n : VarDecl} (h : n.Complete) : AllTaken n.element.leaves := by
  have hnames : AllTaken (n.names.leaves fun t => [t]) := h.names.allTaken fun t ht => by simpa using ht.1
  rw [VarDecl.leaves_element]
  simp [h.keyword.1, h.type.allTaken, hnames, h.semicolon.1]

theorem VarDecls.Complete.allTaken {n : VarDecls} (h : n.Complete) (rule : Rule) : AllTaken (n.element rule).leaves := by
  rw [VarDecls.leaves_element]
  exact allTaken_flatMap fun d hd => (h d hd).allTaken

theorem ParamList.allTaken_leaves? {o : Option ParamList} (h : ∀ ps ∈ o, ps.Complete) : AllTaken (ParamList.leaves? o) := by
  cases o with
  | none => simp
  | some ps =>
    rw [ParamList.leaves?_some, ParamList.leaves_element]
    refine Separated.Complete.allTaken (fun p hp => ?_) (h ps rfl)
    rw [Param.leaves, allTaken_append]
    exact ⟨hp.type.allTaken, by simpa using hp.name.1⟩

theorem Block.Complete.allTaken {n : Block} (h : n.Complete) : AllTaken n.element.leaves := by
  have hstatements : AllTaken (n.statements.flatMap fun t => t.element.leaves) :=
    allTaken_flatMap fun t ht => by simpa using (h.statements t ht).1
  rw [Block.leaves_element]
  simpa [h.left.1, h.right.1] using hstatements

theorem FunctionDecl.Complete.allTaken {n : FunctionDecl} (h : n.Complete) : AllTaken n.element.leaves := by
  rw [FunctionDecl.leaves_element]
  simp [h.keyword.1, h.name.1, h.left.1, ParamList.allTaken_leaves? h.params, h.right.1, h.locals.allTaken, h.body.allTaken]

theorem MainBlock.Complete.allTaken {n : MainBlock} (h : n.Complete) : AllTaken n.element.leaves := by
  rw [MainBlock.leaves_element]
  simp [h.keyword.1, h.block.allTaken]

theorem Program.Complete.allTaken {n : Program} (h : n.Complete) : AllTaken n.element.leaves := by
  have hfunctions : AllTaken n.functions.element.leaves := by
    rw [Functions.leaves_element]
    exact allTaken_flatMap fun d hd => (h.functions d hd).allTaken
  rw [Program.leaves_element]
  simp [h.keyword.1, h.name.1, h.colon.1, h.globals.allTaken, hfunctions, h.main.allTaken, h.eof.1]

end QuillFrontEnd
