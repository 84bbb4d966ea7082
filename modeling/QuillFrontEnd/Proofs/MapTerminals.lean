import QuillFrontEnd.Proofs.CompleteTree

/-!
# Changing the terminals of a tree

`mapTerminals f` changes every terminal of a node by `f` and drops the spans of its nodes, so with the identity it is `bare`. What
two trees have in common apart from some of the data of their terminals is said by changing the terminals of both: `shape` keeps
the kinds only, and what is left of a tree are its nodes, the lengths of its lists and its options.
-/

namespace QuillFrontEnd

variable (f g : Terminal → Terminal)

/-! ## Definitions -/

/-- The items and the separators, each changed in its own way. -/
def Separated.mapTerminals {α : Type} (item : α → α) (x : Separated α) : Separated α :=
  ⟨x.items.map item, x.separators.map f⟩

def BasicType.mapTerminals (n : BasicType) : BasicType := { keyword := f n.keyword }

def Extent.mapTerminals (n : Extent) : Extent := { left := f n.left, size := f n.size, right := f n.right }

def Dimension.mapTerminals (n : Dimension) : Dimension := { extent := n.extent.mapTerminals f }

def TypeSpec.mapTerminals (n : TypeSpec) : TypeSpec where
  basic := n.basic.mapTerminals f
  first := n.first.map (Dimension.mapTerminals f)
  second := n.second.map (Dimension.mapTerminals f)

def VarDecl.mapTerminals (n : VarDecl) : VarDecl where
  keyword := f n.keyword
  type := n.type.mapTerminals f
  names := n.names.mapTerminals f f
  semicolon := f n.semicolon

def VarDecls.mapTerminals (n : VarDecls) : VarDecls := { decls := n.decls.map (VarDecl.mapTerminals f) }

def Param.mapTerminals (n : Param) : Param := { type := n.type.mapTerminals f, name := f n.name }

def ParamList.mapTerminals (n : ParamList) : ParamList := { params := n.params.mapTerminals f (Param.mapTerminals f) }

def Statement.mapTerminals (n : Statement) : Statement := { semicolon := f n.semicolon }

def Block.mapTerminals (n : Block) : Block where
  left := f n.left
  statements := n.statements.map (Statement.mapTerminals f)
  right := f n.right

def FunctionDecl.mapTerminals (n : FunctionDecl) : FunctionDecl where
  keyword := f n.keyword
  name := f n.name
  left := f n.left
  params := n.params.map (ParamList.mapTerminals f)
  right := f n.right
  locals := n.locals.mapTerminals f
  body := n.body.mapTerminals f

def Functions.mapTerminals (n : Functions) : Functions := { decls := n.decls.map (FunctionDecl.mapTerminals f) }

def MainBlock.mapTerminals (n : MainBlock) : MainBlock := { keyword := f n.keyword, block := n.block.mapTerminals f }

def Program.mapTerminals (n : Program) : Program where
  keyword := f n.keyword
  name := f n.name
  colon := f n.colon
  globals := n.globals.mapTerminals f
  functions := n.functions.mapTerminals f
  main := n.main.mapTerminals f
  eof := f n.eof

/-! ## One change after another -/

theorem Dimension.mapTerminals_comp :
    Dimension.mapTerminals g ∘ Dimension.mapTerminals f = Dimension.mapTerminals (g ∘ f) := rfl

theorem VarDecl.mapTerminals_comp : VarDecl.mapTerminals g ∘ VarDecl.mapTerminals f = VarDecl.mapTerminals (g ∘ f) := by
  funext n
  simp [VarDecl.mapTerminals, TypeSpec.mapTerminals, BasicType.mapTerminals, Separated.mapTerminals,
    Dimension.mapTerminals_comp]

theorem ParamList.mapTerminals_comp :
    ParamList.mapTerminals g ∘ ParamList.mapTerminals f = ParamList.mapTerminals (g ∘ f) := by
  have hparam : Param.mapTerminals g ∘ Param.mapTerminals f = Param.mapTerminals (g ∘ f) := rfl
  funext n
  simp [ParamList.mapTerminals, Separated.mapTerminals, hparam]

theorem Block.mapTerminals_mapTerminals (n : Block) : (n.mapTerminals f).mapTerminals g = n.mapTerminals (g ∘ f) := by
  have hstatement : Statement.mapTerminals g ∘ Statement.mapTerminals f = Statement.mapTerminals (g ∘ f) := rfl
  simp [Block.mapTerminals, hstatement]

theorem VarDecls.mapTerminals_mapTerminals (n : VarDecls) :
    (n.mapTerminals f).mapTerminals g = n.mapTerminals (g ∘ f) := by
  simp [VarDecls.mapTerminals, VarDecl.mapTerminals_comp]

theorem FunctionDecl.mapTerminals_comp :
    FunctionDecl.mapTerminals g ∘ FunctionDecl.mapTerminals f = FunctionDecl.mapTerminals (g ∘ f) := by
  funext n
  simp [FunctionDecl.mapTerminals, ParamList.mapTerminals_comp, VarDecls.mapTerminals_mapTerminals,
    Block.mapTerminals_mapTerminals]

theorem Program.mapTerminals_mapTerminals (n : Program) : (n.mapTerminals f).mapTerminals g = n.mapTerminals (g ∘ f) := by
  simp [Program.mapTerminals, VarDecls.mapTerminals_mapTerminals, Functions.mapTerminals, FunctionDecl.mapTerminals_comp,
    MainBlock.mapTerminals, Block.mapTerminals_mapTerminals]

/-! ## Nodes without their spans -/

theorem Dimension.bare_eq_mapTerminals : Dimension.bare = Dimension.mapTerminals id := rfl

theorem TypeSpec.bare_eq_mapTerminals : TypeSpec.bare = TypeSpec.mapTerminals id := rfl

theorem VarDecl.bare_eq_mapTerminals : VarDecl.bare = VarDecl.mapTerminals id := by
  funext n
  simp [VarDecl.bare, VarDecl.mapTerminals, Separated.mapTerminals, TypeSpec.bare_eq_mapTerminals]

theorem VarDecls.bare_eq_mapTerminals : VarDecls.bare = VarDecls.mapTerminals id := by
  funext n
  simp [VarDecls.bare, VarDecls.mapTerminals, VarDecl.bare_eq_mapTerminals]

theorem ParamList.bare_eq_mapTerminals : ParamList.bare = ParamList.mapTerminals id := by
  have hparam : Param.bare = Param.mapTerminals id := rfl
  funext n
  simp [ParamList.bare, ParamList.mapTerminals, Separated.map, Separated.mapTerminals, hparam]

theorem Block.bare_eq_mapTerminals : Block.bare = Block.mapTerminals id := rfl

theorem FunctionDecl.bare_eq_mapTerminals : FunctionDecl.bare = FunctionDecl.mapTerminals id := by
  funext n
  simp [FunctionDecl.bare, FunctionDecl.mapTerminals, ParamList.bare_eq_mapTerminals, VarDecls.bare_eq_mapTerminals,
    Block.bare_eq_mapTerminals]

theorem Program.bare_eq_mapTerminals : Program.bare = Program.mapTerminals id := by
  funext n
  simp [Program.bare, Program.mapTerminals, VarDecls.bare_eq_mapTerminals, Functions.bare, Functions.mapTerminals,
    FunctionDecl.bare_eq_mapTerminals, MainBlock.bare, MainBlock.mapTerminals, Block.bare_eq_mapTerminals]

/-- Spans make no difference to what is left after a change of the terminals. -/
@[simp] theorem Program.mapTerminals_bare (n : Program) : n.bare.mapTerminals f = n.mapTerminals f := by
  rw [Program.bare_eq_mapTerminals, Program.mapTerminals_mapTerminals]
  rfl

@[simp] theorem Program.bare_mapTerminals (n : Program) : (n.mapTerminals f).bare = n.mapTerminals f := by
  rw [Program.bare_eq_mapTerminals, Program.mapTerminals_mapTerminals]
  rfl

/-! ## The terminals -/

/-- Items and separators may be changed before or after they are put in order. -/
theorem Separated.leaves_mapTerminals {α : Type} (item : α → α) (leaves : α → List Terminal)
    (h : ∀ a, leaves (item a) = (leaves a).map f) (x : Separated α) :
    (x.mapTerminals f item).leaves leaves = (x.leaves leaves).map f := by
  obtain ⟨as, ss⟩ := x
  unfold Separated.leaves Separated.mapTerminals
  dsimp only
  fun_induction interleave leaves id as ss with
  | case1 ss => simp [interleave]
  | case2 a as ih => rw [List.map_cons, List.map_nil, interleave, h, List.map_append, ← ih, List.map_nil]
  | case3 a as s ss ih => rw [List.map_cons, List.map_cons, interleave, h, List.map_append, List.map_cons, ih]; rfl

theorem Extent.leaves_mapTerminals (n : Extent) : (n.mapTerminals f).element.leaves = n.element.leaves.map f := rfl

theorem Dimension.leaves?_mapTerminals (d : Option Dimension) :
    leaves? (d.map (Dimension.mapTerminals f)) = (leaves? d).map f := by cases d <;> rfl

theorem TypeSpec.leaves_mapTerminals (n : TypeSpec) : (n.mapTerminals f).element.leaves = n.element.leaves.map f := by
  simp [TypeSpec.leaves_element, TypeSpec.mapTerminals, BasicType.mapTerminals, Dimension.leaves?_mapTerminals]

theorem VarDecl.leaves_mapTerminals (n : VarDecl) : (n.mapTerminals f).element.leaves = n.element.leaves.map f := by
  have hnames := Separated.leaves_mapTerminals f f (fun t => [t]) (fun _ => rfl) n.names
  simp [VarDecl.leaves_element, VarDecl.mapTerminals, TypeSpec.leaves_mapTerminals, hnames]

theorem VarDecls.leaves_mapTerminals (rule : Rule) (n : VarDecls) :
    ((n.mapTerminals f).element rule).leaves = (n.element rule).leaves.map f := by
  simp [VarDecls.leaves_element, VarDecls.mapTerminals, List.flatMap_map, List.map_flatMap, VarDecl.leaves_mapTerminals]

theorem ParamList.leaves?_mapTerminals (ps : Option ParamList) :
    leaves? (ps.map (ParamList.mapTerminals f)) = (leaves? ps).map f := by
  cases ps with
  | none => rfl
  | some ps =>
    have hparams := Separated.leaves_mapTerminals f (Param.mapTerminals f) Param.leaves (fun _ => rfl) ps.params
    simpa [ParamList.leaves_element, ParamList.mapTerminals] using hparams

theorem Block.leaves_mapTerminals (n : Block) : (n.mapTerminals f).element.leaves = n.element.leaves.map f := by
  simp [Block.leaves_element, Block.mapTerminals, Statement.mapTerminals, List.flatMap_map, List.map_flatMap]

theorem FunctionDecl.leaves_mapTerminals (n : FunctionDecl) :
    (n.mapTerminals f).element.leaves = n.element.leaves.map f := by
  simp [FunctionDecl.leaves_element, FunctionDecl.mapTerminals, ParamList.leaves?_mapTerminals, VarDecls.leaves_mapTerminals,
    Block.leaves_mapTerminals]

theorem Functions.leaves_mapTerminals (n : Functions) :
    (n.mapTerminals f).element.leaves = n.element.leaves.map f := by
  simp [Functions.leaves_element, Functions.mapTerminals, List.flatMap_map, List.map_flatMap, FunctionDecl.leaves_mapTerminals]

theorem MainBlock.leaves_mapTerminals (n : MainBlock) : (n.mapTerminals f).element.leaves = n.element.leaves.map f := by
  simp [MainBlock.leaves_element, MainBlock.mapTerminals, Block.leaves_mapTerminals]

/-- The terminals of a tree are changed one by one. -/
theorem Program.leaves_mapTerminals (n : Program) : (n.mapTerminals f).element.leaves = n.element.leaves.map f := by
  simp [Program.leaves_element, Program.mapTerminals, VarDecls.leaves_mapTerminals, Functions.leaves_mapTerminals,
    MainBlock.leaves_mapTerminals]

/-! ## Complete trees -/

section

variable {f} (hf : ∀ k t, Terminal.Holds k t → (f t).Holds k)
include hf

theorem Separated.Complete.mapTerminals {α : Type} {C : α → Prop} {item : α → α} (hitem : ∀ a, C a → C (item a))
    {x : Separated α} (h : x.Complete C) : (x.mapTerminals f item).Complete C := by
  refine ⟨by simpa [Separated.mapTerminals] using h.length, ?_, ?_⟩
  · exact List.forall_mem_map.2 fun a ha => hitem a (h.items a ha)
  · exact List.forall_mem_map.2 fun t ht => hf _ t (h.separators t ht)

theorem BasicType.Complete.mapTerminals {n : BasicType} (h : n.Complete) : (n.mapTerminals f).Complete :=
  Or.imp (hf _ _) (hf _ _) h

theorem Dimension.Complete.mapTerminals {n : Dimension} (h : n.Complete) : (n.mapTerminals f).Complete :=
  ⟨hf _ _ h.left, hf _ _ h.size, hf _ _ h.right⟩

theorem TypeSpec.Complete.mapTerminals {n : TypeSpec} (h : n.Complete) : (n.mapTerminals f).Complete := by
  refine ⟨h.basic.mapTerminals hf, ?_, ?_, by simpa [TypeSpec.mapTerminals] using h.inOrder⟩
  · intro d hd
    obtain ⟨e, he, rfl⟩ := Option.map_eq_some_iff.1 hd
    exact (h.first e he).mapTerminals hf
  · intro d hd
    obtain ⟨e, he, rfl⟩ := Option.map_eq_some_iff.1 hd
    exact (h.second e he).mapTerminals hf

theorem VarDecl.Complete.mapTerminals {n : VarDecl} (h : n.Complete) : (n.mapTerminals f).Complete :=
  ⟨hf _ _ h.keyword, h.type.mapTerminals hf, h.names.mapTerminals hf (hf _), hf _ _ h.semicolon⟩

theorem VarDecls.Complete.mapTerminals {n : VarDecls} (h : n.Complete) : (n.mapTerminals f).Complete :=
  List.forall_mem_map.2 fun d hd => (h d hd).mapTerminals hf

theorem ParamList.Complete.mapTerminals {n : ParamList} (h : n.Complete) : (n.mapTerminals f).Complete :=
  Separated.Complete.mapTerminals hf (fun _ hp => ⟨hp.type.mapTerminals hf, hf _ _ hp.name⟩) h

theorem Block.Complete.mapTerminals {n : Block} (h : n.Complete) : (n.mapTerminals f).Complete :=
  ⟨hf _ _ h.left, List.forall_mem_map.2 fun t ht => hf _ _ (h.statements t ht), hf _ _ h.right⟩

theorem FunctionDecl.Complete.mapTerminals {n : FunctionDecl} (h : n.Complete) : (n.mapTerminals f).Complete where
  keyword := hf _ _ h.keyword
  name := hf _ _ h.name
  left := hf _ _ h.left
  params ps hps := by
    obtain ⟨qs, hqs, rfl⟩ := Option.map_eq_some_iff.1 hps
    exact (h.params qs hqs).mapTerminals hf
  right := hf _ _ h.right
  locals := h.locals.mapTerminals hf
  body := h.body.mapTerminals hf

/-- A change that keeps the kinds of the terminals and leaves none out keeps a tree complete. -/
theorem Program.Complete.mapTerminals {n : Program} (h : n.Complete) : (n.mapTerminals f).Complete where
  keyword := hf _ _ h.keyword
  name := hf _ _ h.name
  colon := hf _ _ h.colon
  globals := h.globals.mapTerminals hf
  functions := List.forall_mem_map.2 fun d hd => (h.functions d hd).mapTerminals hf
  main := ⟨hf _ _ h.main.keyword, h.main.block.mapTerminals hf⟩
  eof := hf _ _ h.eof

end

end QuillFrontEnd
