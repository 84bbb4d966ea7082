import QuillFrontEnd.Proofs.MapTerminals

/-!
# Regions of a program

A region is a part of a program that other tokens may stand in place of: the header, what is between the keyword and the semicolon
of a declaration, what is between the braces of a block, or all of a function after its keyword. Given a region, an `Excerpt` cuts
the terminals of a tree around it, and `outside` blanks the node that the region belongs to, so that two trees with the same
outside differ in that node only.
-/

namespace QuillFrontEnd

variable {α : Type}

/-- The items of a list are those before a place, the one at it and those after it. -/
theorem eq_take_append_cons_drop {as : List α} {i : Nat} {a : α} (h : as[i]? = some a) :
    as = as.take i ++ a :: as.drop (i + 1) := by
  obtain ⟨hi, rfl⟩ := List.getElem?_eq_some_iff.1 h
  rw [List.getElem_cons_drop, List.take_append_drop]

/-- What an item was does not matter to a change after which it is as the item that was there is after another change. -/
theorem modify_of_replaced {as : List α} {i : Nat} {a b : α} {g g' : α → α} (h : as[i]? = some a) (hg : g b = g' a) :
    (as.take i ++ b :: as.drop (i + 1)).modify i g = as.modify i g' := by
  induction as generalizing i with
  | nil => simp at h
  | cons c cs ih =>
    cases i with
    | zero =>
      obtain rfl : c = a := by simpa using h
      simp [hg]
    | succ i => simpa using ih (by simpa using h)

/-- Items may be changed after one of them was changed, or before. -/
theorem map_modify {β : Type} {f : α → β} {g : α → α} {g' : β → β} (h : ∀ a, f (g a) = g' (f a)) (as : List α) (i : Nat) :
    (as.modify i g).map f = (as.map f).modify i g' := by
  induction as generalizing i with
  | nil => simp
  | cons a as ih =>
    cases i with
    | zero => simp [h]
    | succ i => simpa using ih i

/-! ## Regions -/

/-- A part of a function that may be damaged. -/
inductive FunctionPart where
  /-- What is between the keyword and the semicolon of the local declaration at a place, counted from 0. -/
  | localDecl (i : Nat)
  /-- What is between the braces of the block. -/
  | block
  /-- All that comes after the keyword. -/
  | whole
deriving DecidableEq

/-- A part of a program that may be damaged. -/
inductive Region where
  /-- The keyword, the name and the colon at the beginning. -/
  | header
  /-- What is between the keyword and the semicolon of the global declaration at a place, counted from 0. -/
  | globalDecl (i : Nat)
  /-- A part of the function at a place, counted from 0. -/
  | inFunction (i : Nat) (part : FunctionPart)
  /-- What is between the braces of the main block. -/
  | mainBlock
deriving DecidableEq

/-- The kinds that may not stand in a header. -/
def headerLimits : List TokenKind := [.var, .function, .main, .leftBrace, .endOfInput]

/-- The kinds that may not stand in a declaration. -/
def declLimits : List TokenKind := [.var, .function, .main, .leftBrace, .semicolon, .endOfInput]

/-- The kinds that may not stand in a block. -/
def blockLimits : List TokenKind := [.rightBrace, .function, .main, .endOfInput]

/-- The kinds that may not stand in a function. -/
def functionLimits : List TokenKind := [.function, .main, .endOfInput]

/-- Whether tokens of the given kinds may stand in place of a part of a function. -/
def FunctionPart.Allows : FunctionPart → List TokenKind → Prop
  | localDecl _, ks => ∀ k ∈ ks, k ∉ declLimits
  | block, ks => ∀ k ∈ ks, k ∉ blockLimits
  | whole, ks => (∀ k ∈ ks, k ∉ functionLimits) ∧ ks.count .leftBrace ≤ 1

/-- Whether tokens of the given kinds may stand in place of a region. -/
def Region.Allows : Region → List TokenKind → Prop
  | header, ks => ∀ k ∈ ks, k ∉ headerLimits
  | globalDecl _, ks => ∀ k ∈ ks, k ∉ declLimits
  | inFunction _ part, ks => part.Allows ks
  | mainBlock, ks => ∀ k ∈ ks, k ∉ blockLimits

/-! ## Excerpts -/

/-- Terminals in order: those before a region, the mark that opens it, those in it, the mark that closes it, and those after. -/
structure Excerpt where
  before : List Terminal := []
  opening : List Terminal := []
  inside : List Terminal
  closing : List Terminal := []
  after : List Terminal := []
deriving DecidableEq

namespace Excerpt

/-- All terminals of an excerpt. -/
def terminals (e : Excerpt) : List Terminal := e.before ++ (e.opening ++ (e.inside ++ (e.closing ++ e.after)))

/-- The excerpt with more terminals around it. -/
def within (left right : List Terminal) (e : Excerpt) : Excerpt :=
  { e with before := left ++ e.before, after := e.after ++ right }

@[simp] theorem terminals_within (left right : List Terminal) (e : Excerpt) :
    (e.within left right).terminals = left ++ (e.terminals ++ right) := by
  simp [terminals, within]

/-- The excerpt around a part of the item at a place of a list. -/
def inList (leaves : α → List Terminal) (part : α → Option Excerpt) (as : List α) (i : Nat) : Option Excerpt :=
  (as[i]?.bind part).map (within ((as.take i).flatMap leaves) ((as.drop (i + 1)).flatMap leaves))

variable {leaves : α → List Terminal} {part : α → Option Excerpt} {as : List α} {i : Nat} {e : Excerpt}

theorem inList_eq_some_iff : inList leaves part as i = some e ↔ ∃ a e', as[i]? = some a ∧ part a = some e' ∧
    e = e'.within ((as.take i).flatMap leaves) ((as.drop (i + 1)).flatMap leaves) := by
  simp only [inList, Option.map_eq_some_iff, Option.bind_eq_some_iff]
  constructor
  · rintro ⟨e', ⟨a, ha, he'⟩, rfl⟩
    exact ⟨a, e', ha, he', rfl⟩
  · rintro ⟨a, e', ha, he', rfl⟩
    exact ⟨e', ⟨a, ha, he'⟩, rfl⟩

theorem terminals_of_inList (h : inList leaves part as i = some e) (hpart : ∀ a e, part a = some e → e.terminals = leaves a) :
    e.terminals = as.flatMap leaves := by
  obtain ⟨a, e', ha, he', rfl⟩ := inList_eq_some_iff.1 h
  rw [terminals_within, hpart a e' he']
  calc (as.take i).flatMap leaves ++ (leaves a ++ (as.drop (i + 1)).flatMap leaves)
    _ = (as.take i ++ a :: as.drop (i + 1)).flatMap leaves := by simp
    _ = as.flatMap leaves := by rw [← eq_take_append_cons_drop ha]

/-- The excerpt with every terminal changed in the same way. -/
def map (f : Terminal → Terminal) (e : Excerpt) : Excerpt :=
  ⟨e.before.map f, e.opening.map f, e.inside.map f, e.closing.map f, e.after.map f⟩

theorem map_within (f : Terminal → Terminal) (left right : List Terminal) (e : Excerpt) :
    (e.within left right).map f = (e.map f).within (left.map f) (right.map f) := by
  simp [map, within]

theorem inList_map {f : Terminal → Terminal} {g : α → α} (hleaves : ∀ a, leaves (g a) = (leaves a).map f)
    (hpart : ∀ a, part (g a) = (part a).map (map f)) (as : List α) (i : Nat) :
    inList leaves part (as.map g) i = (inList leaves part as i).map (map f) := by
  unfold inList
  rw [List.getElem?_map, ← List.map_take, ← List.map_drop, List.flatMap_map, List.flatMap_map]
  cases as[i]? with
  | none => rfl
  | some a =>
    cases hp : part a with
    | none => simp [hpart, hp]
    | some e => simp [hpart, hp, hleaves, map_within, List.map_flatMap]

end Excerpt

/-- What is between the keyword and the semicolon of a declaration. -/
def VarDecl.excerpt (n : VarDecl) : Excerpt where
  opening := [n.keyword]
  inside := n.type.element.leaves ++ n.names.leaves fun t => [t]
  closing := [n.semicolon]

/-- What is between the braces of a block. -/
def Block.excerpt (n : Block) : Excerpt where
  opening := [n.left]
  inside := n.statements.flatMap fun t => t.element.leaves
  closing := [n.right]

/-- The excerpt around the declaration at a place. -/
def VarDecls.excerpt? (n : VarDecls) (i : Nat) : Option Excerpt :=
  Excerpt.inList (fun d => d.element.leaves) (fun d => some d.excerpt) n.decls i

/-- The terminals of a function after its keyword and before its declarations. -/
def FunctionDecl.nameAndParams (n : FunctionDecl) : List Terminal := n.name :: n.left :: (ParamList.leaves? n.params ++ [n.right])

/-- The excerpt around a part of a function, if it has that part. -/
def FunctionDecl.excerpt? (n : FunctionDecl) : FunctionPart → Option Excerpt
  | .localDecl i => (n.locals.excerpt? i).map (.within (n.keyword :: n.nameAndParams) n.body.element.leaves)
  | .block => some (n.body.excerpt.within (n.keyword :: (n.nameAndParams ++ (n.locals.element .localVars).leaves)) [])
  | .whole => some {
      before := [n.keyword]
      inside := n.nameAndParams ++ ((n.locals.element .localVars).leaves ++ n.body.element.leaves) }

/-- The header of a program. -/
def Program.heading (n : Program) : List Terminal := [n.keyword, n.name, n.colon]

/-- The excerpt around a region of a program, if it has that region. -/
def Program.excerpt? (n : Program) : Region → Option Excerpt
  | .header => some {
      inside := n.heading
      after := (n.globals.element .globalVars).leaves ++ (n.functions.element.leaves ++ (n.main.element.leaves ++ [n.eof])) }
  | .globalDecl i =>
    (n.globals.excerpt? i).map (.within n.heading (n.functions.element.leaves ++ (n.main.element.leaves ++ [n.eof])))
  | .inFunction i part =>
    (Excerpt.inList (fun f => f.element.leaves) (fun f => f.excerpt? part) n.functions.decls i).map
      (.within (n.heading ++ (n.globals.element .globalVars).leaves) (n.main.element.leaves ++ [n.eof]))
  | .mainBlock => some (n.main.block.excerpt.within
      (n.heading ++ ((n.globals.element .globalVars).leaves ++ (n.functions.element.leaves ++ [n.main.keyword]))) [n.eof])

/-! The terminals of an excerpt are those of the node. -/

theorem VarDecl.terminals_excerpt (n : VarDecl) : n.excerpt.terminals = n.element.leaves := by
  simp [excerpt, Excerpt.terminals, VarDecl.leaves_element]

theorem Block.terminals_excerpt (n : Block) : n.excerpt.terminals = n.element.leaves := by
  simp [excerpt, Excerpt.terminals, Block.leaves_element]

theorem VarDecls.terminals_of_excerpt? {n : VarDecls} {i : Nat} {e : Excerpt} (h : n.excerpt? i = some e) (rule : Rule) :
    e.terminals = (n.element rule).leaves := by
  rw [VarDecls.leaves_element]
  refine Excerpt.terminals_of_inList h fun d e he => ?_
  rw [← Option.some.inj he, VarDecl.terminals_excerpt]

theorem FunctionDecl.leaves_eq (n : FunctionDecl) :
    n.element.leaves = n.keyword :: (n.nameAndParams ++ ((n.locals.element .localVars).leaves ++ n.body.element.leaves)) := by
  simp [FunctionDecl.leaves_element, nameAndParams]

theorem FunctionDecl.terminals_of_excerpt? {n : FunctionDecl} {part : FunctionPart} {e : Excerpt} (h : n.excerpt? part = some e) :
    e.terminals = n.element.leaves := by
  rw [n.leaves_eq]
  cases part with
  | localDecl i =>
    obtain ⟨e', he', rfl⟩ := Option.map_eq_some_iff.1 h
    rw [Excerpt.terminals_within, VarDecls.terminals_of_excerpt? he' .localVars]
    simp
  | block =>
    rw [← Option.some.inj h, Excerpt.terminals_within, Block.terminals_excerpt]
    simp
  | whole =>
    rw [← Option.some.inj h]
    simp [Excerpt.terminals]

theorem Program.leaves_eq (n : Program) :
    n.element.leaves = n.heading ++ ((n.globals.element .globalVars).leaves ++
      (n.functions.element.leaves ++ (n.main.element.leaves ++ [n.eof]))) := by
  simp [Program.leaves_element, heading]

theorem Program.terminals_of_excerpt? {n : Program} {r : Region} {e : Excerpt} (h : n.excerpt? r = some e) :
    e.terminals = n.element.leaves := by
  rw [n.leaves_eq]
  cases r with
  | header =>
    rw [← Option.some.inj h]
    simp [Excerpt.terminals]
  | globalDecl i =>
    obtain ⟨e', he', rfl⟩ := Option.map_eq_some_iff.1 h
    rw [Excerpt.terminals_within, VarDecls.terminals_of_excerpt? he' .globalVars]
  | inFunction i part =>
    obtain ⟨e', he', rfl⟩ := Option.map_eq_some_iff.1 h
    have hterminals := Excerpt.terminals_of_inList he' fun f e => FunctionDecl.terminals_of_excerpt?
    rw [Excerpt.terminals_within, hterminals, Functions.leaves_element]
    simp
  | mainBlock =>
    rw [← Option.some.inj h, Excerpt.terminals_within, Block.terminals_excerpt]
    simp [MainBlock.leaves_element]

/-! The terminals may be changed before or after an excerpt is cut. -/

theorem VarDecl.excerpt_mapTerminals (f : Terminal → Terminal) (n : VarDecl) : (n.mapTerminals f).excerpt = n.excerpt.map f := by
  have hnames := Separated.leaves_mapTerminals f f (fun t => [t]) (fun _ => rfl) n.names
  simp [excerpt, Excerpt.map, VarDecl.mapTerminals, TypeSpec.leaves_mapTerminals, hnames]

theorem Block.excerpt_mapTerminals (f : Terminal → Terminal) (n : Block) : (n.mapTerminals f).excerpt = n.excerpt.map f := by
  simp [excerpt, Excerpt.map, Block.mapTerminals, Statement.mapTerminals, List.flatMap_map, List.map_flatMap]

theorem VarDecls.excerpt?_mapTerminals (f : Terminal → Terminal) (n : VarDecls) (i : Nat) :
    (n.mapTerminals f).excerpt? i = (n.excerpt? i).map (Excerpt.map f) :=
  Excerpt.inList_map (fun d => d.leaves_mapTerminals f) (fun d => by simp [VarDecl.excerpt_mapTerminals]) n.decls i

theorem FunctionDecl.nameAndParams_mapTerminals (f : Terminal → Terminal) (n : FunctionDecl) :
    (n.mapTerminals f).nameAndParams = n.nameAndParams.map f := by
  simp [nameAndParams, FunctionDecl.mapTerminals, ParamList.leaves?_mapTerminals]

theorem FunctionDecl.excerpt?_mapTerminals (f : Terminal → Terminal) (n : FunctionDecl) (part : FunctionPart) :
    (n.mapTerminals f).excerpt? part = (n.excerpt? part).map (Excerpt.map f) := by
  have hlocals : (n.mapTerminals f).locals = n.locals.mapTerminals f := rfl
  have hbody : (n.mapTerminals f).body = n.body.mapTerminals f := rfl
  have hkeyword : (n.mapTerminals f).keyword = f n.keyword := rfl
  cases part with
  | localDecl i =>
    rw [excerpt?, excerpt?, hlocals, hbody, hkeyword, nameAndParams_mapTerminals, VarDecls.excerpt?_mapTerminals,
      Block.leaves_mapTerminals]
    cases n.locals.excerpt? i with
    | none => rfl
    | some e => simp [Excerpt.map_within]
  | block =>
    simp [excerpt?, hlocals, hbody, hkeyword, nameAndParams_mapTerminals, Block.excerpt_mapTerminals, Excerpt.map_within,
      VarDecls.leaves_mapTerminals]
  | whole =>
    simp [excerpt?, hlocals, hbody, hkeyword, nameAndParams_mapTerminals, Block.leaves_mapTerminals, Excerpt.map,
      VarDecls.leaves_mapTerminals]

theorem Program.excerpt?_mapTerminals (f : Terminal → Terminal) (n : Program) (r : Region) :
    (n.mapTerminals f).excerpt? r = (n.excerpt? r).map (Excerpt.map f) := by
  have hheading : (n.mapTerminals f).heading = n.heading.map f := rfl
  have hglobals : (n.mapTerminals f).globals = n.globals.mapTerminals f := rfl
  have hfunctions : (n.mapTerminals f).functions = n.functions.mapTerminals f := rfl
  have hmain : (n.mapTerminals f).main = n.main.mapTerminals f := rfl
  have heof : (n.mapTerminals f).eof = f n.eof := rfl
  cases r with
  | header =>
    simp [excerpt?, hheading, hglobals, hfunctions, hmain, heof, VarDecls.leaves_mapTerminals, Functions.leaves_mapTerminals,
      MainBlock.leaves_mapTerminals, Excerpt.map]
  | globalDecl i =>
    rw [excerpt?, excerpt?, hheading, hglobals, hfunctions, hmain, heof, VarDecls.excerpt?_mapTerminals,
      Functions.leaves_mapTerminals, MainBlock.leaves_mapTerminals]
    cases n.globals.excerpt? i with
    | none => rfl
    | some e => simp [Excerpt.map_within]
  | inFunction i part =>
    have hlist : Excerpt.inList (fun d => d.element.leaves) (fun d => d.excerpt? part)
        (n.functions.decls.map (FunctionDecl.mapTerminals f)) i = _ :=
      Excerpt.inList_map (FunctionDecl.leaves_mapTerminals f) (fun d => d.excerpt?_mapTerminals f part) n.functions.decls i
    have hdecls : (n.functions.mapTerminals f).decls = n.functions.decls.map (FunctionDecl.mapTerminals f) := rfl
    rw [excerpt?, excerpt?, hheading, hglobals, hfunctions, hmain, heof, hdecls, hlist, VarDecls.leaves_mapTerminals,
      MainBlock.leaves_mapTerminals]
    cases Excerpt.inList (fun f => f.element.leaves) (fun f => f.excerpt? part) n.functions.decls i with
    | none => rfl
    | some e => simp [Excerpt.map_within]
  | mainBlock =>
    have hkeyword : (n.main.mapTerminals f).keyword = f n.main.keyword := rfl
    have hblock : (n.main.mapTerminals f).block = n.main.block.mapTerminals f := rfl
    simp [excerpt?, hheading, hglobals, hfunctions, hmain, heof, hkeyword, hblock, VarDecls.leaves_mapTerminals,
      Functions.leaves_mapTerminals, Block.excerpt_mapTerminals, Excerpt.map_within]

/-! ## What is outside of a region -/

/-- The declarations, with that at a place blanked. -/
def VarDecls.outside (i : Nat) (n : VarDecls) : VarDecls := { n with decls := n.decls.modify i fun _ => {} }

/-- The function, with a part of it blanked. -/
def FunctionDecl.outside : FunctionPart → FunctionDecl → FunctionDecl
  | .localDecl i, n => { n with locals := n.locals.outside i }
  | .block, n => { n with body := {} }
  | .whole, _ => {}

/-- The functions, with a part of that at a place blanked. -/
def Functions.outside (i : Nat) (part : FunctionPart) (n : Functions) : Functions :=
  { n with decls := n.decls.modify i (.outside part) }

/-- The program, with the node of a region blanked. -/
def Program.outside : Region → Program → Program
  | .header, n => { n with keyword := .absent .program, name := .absent .identifier, colon := .absent .colon }
  | .globalDecl i, n => { n with globals := n.globals.outside i }
  | .inFunction i part, n => { n with functions := n.functions.outside i part }
  | .mainBlock, n => { n with main := { n.main with block := {} } }

/-! ## Trees without places -/

/-- The token at no place: only its kind and text are left. -/
def Token.unplaced (t : Token) : Token := { t with span := .zero, position := .first }

/-- The terminal at no place: its kind, its text and whether it is missing are left. -/
def Terminal.unplaced (t : Terminal) : Terminal := { t with span := .zero, position := .first }

theorem Terminal.Holds.unplaced {k : TokenKind} {t : Terminal} (h : t.Holds k) : t.unplaced.Holds k := h

theorem takenTokens_map_unplaced (ts : List Terminal) :
    takenTokens (ts.map Terminal.unplaced) = (takenTokens ts).map Token.unplaced := by
  induction ts with
  | nil => rfl
  | cons t ts ih =>
    rw [List.map_cons, takenTokens_cons, takenTokens_cons, List.map_append, ih, Terminal.token?, Terminal.token?]
    cases h : t.missing <;> simp [h, Terminal.unplaced, Token.unplaced]

/-- Tokens that are the same but for their places. -/
def SameTexts (ts us : List Token) : Prop := ts.map Token.unplaced = us.map Token.unplaced

namespace SameTexts

variable {ts us ts' us' : List Token}

instance : Decidable (SameTexts ts us) := inferInstanceAs (Decidable (_ = _))

theorem append (h : SameTexts ts us) (h' : SameTexts ts' us') : SameTexts (ts ++ ts') (us ++ us') := by
  rw [SameTexts, List.map_append, List.map_append, h, h']

theorem length_eq (h : SameTexts ts us) : ts.length = us.length := by simpa using congrArg List.length h

theorem kinds_eq (h : SameTexts ts us) : ts.map Token.kind = us.map Token.kind := by
  have hkinds := congrArg (List.map Token.kind) h
  rw [List.map_map, List.map_map] at hkinds
  exact hkinds

end SameTexts

/-- What is left of a tree without the places of its nodes and terminals. -/
def Program.unplaced (n : Program) : Program := n.mapTerminals Terminal.unplaced

@[simp] theorem Program.unplaced_bare (n : Program) : n.bare.unplaced = n.unplaced := n.mapTerminals_bare _

theorem VarDecls.outside_unplaced (i : Nat) (n : VarDecls) :
    (n.outside i).mapTerminals Terminal.unplaced = (n.mapTerminals Terminal.unplaced).outside i := by
  have hdecls : (n.decls.modify i fun _ => {}).map (VarDecl.mapTerminals Terminal.unplaced) =
      (n.decls.map (VarDecl.mapTerminals Terminal.unplaced)).modify i fun _ => {} := map_modify (by exact fun _ => rfl) n.decls i
  simp [VarDecls.mapTerminals, outside, hdecls]

theorem FunctionDecl.outside_unplaced (part : FunctionPart) (n : FunctionDecl) :
    (n.outside part).mapTerminals Terminal.unplaced = (n.mapTerminals Terminal.unplaced).outside part := by
  cases part with
  | localDecl i => simp [outside, FunctionDecl.mapTerminals, VarDecls.outside_unplaced]
  | block => rfl
  | whole => rfl

/-- Places may be left out before or after a region is blanked. -/
theorem Program.outside_unplaced (r : Region) (n : Program) : (n.outside r).unplaced = n.unplaced.outside r := by
  cases r with
  | header => rfl
  | globalDecl i => simp [outside, unplaced, Program.mapTerminals, VarDecls.outside_unplaced]
  | inFunction i part =>
    simp [outside, unplaced, Program.mapTerminals, Functions.mapTerminals, Functions.outside,
      map_modify (FunctionDecl.outside_unplaced part)]
  | mainBlock => rfl

/-- Programs that are the same outside of a region, but for places, have as many global declarations and functions. -/
theorem Program.length_eq_of_outside_eq {r : Region} {n m : Program} (h : n.unplaced.outside r = m.unplaced.outside r) :
    n.globals.decls.length = m.globals.decls.length ∧ n.functions.decls.length = m.functions.decls.length := by
  have hlength : ∀ n : Program, (n.unplaced.outside r).globals.decls.length = n.globals.decls.length ∧
      (n.unplaced.outside r).functions.decls.length = n.functions.decls.length := by
    intro n
    cases r <;> simp [outside, unplaced, Program.mapTerminals, VarDecls.outside, VarDecls.mapTerminals, Functions.outside,
      Functions.mapTerminals]
  rw [← (hlength n).1, ← (hlength n).2, h]
  exact hlength m

end QuillFrontEnd
