import QuillFrontEnd.Grammar.Rule

/-!
# The decision table

Wherever the grammar has a choice, the parser makes it by the kind of the next token: go into a repetition or option, leave it,
or refuse the token. A table says what to do for each decision and kind. The standard table is the one of the grammar, with
entries beside it for leaving a repetition at a token where the parser can go on after an error.
-/

namespace QuillFrontEnd

/-- A point of the grammar where there is a choice. -/
inductive Decision where
  /-- Another global declaration? -/
  | moreGlobals
  /-- Another name in a declaration? -/
  | moreNames
  /-- A first array dimension? -/
  | firstDimension
  /-- A second array dimension? -/
  | secondDimension
  /-- What may come after the second array dimension. -/
  | thirdDimension
  /-- Another function? -/
  | moreFunctions
  /-- Is there a parameter list? -/
  | anyParams
  /-- Another parameter? -/
  | moreParams
  /-- Another local declaration? -/
  | moreLocals
  /-- Another statement? -/
  | moreStatements
  /-- Which basic type? -/
  | basicType
deriving DecidableEq

namespace Decision

/-- Every decision, in order. -/
def all : List Decision :=
  [moreGlobals, moreNames, firstDimension, secondDimension, thirdDimension, moreFunctions, anyParams, moreParams, moreLocals,
   moreStatements, basicType]

theorem mem_all (d : Decision) : d ∈ all := by cases d <;> decide

/-- The place of a decision in `all`, counted from 0. -/
def index (d : Decision) : Nat := all.idxOf d

/-- The rule in which a decision is made. -/
def rule : Decision → Rule
  | moreGlobals => .globalVars
  | moreNames => .varDecl
  | firstDimension | secondDimension | thirdDimension => .type
  | moreFunctions => .functions
  | anyParams => .functionDecls
  | moreParams => .paramList
  | moreLocals => .localVars
  | moreStatements => .block
  | basicType => .basicType

end Decision

/-- What to do at a decision for a kind of token. -/
inductive Action where
  /-- Go into the repetition or option, with a phrase of this rule. -/
  | descend (rule : Rule)
  /-- Take the token, which is of this kind. -/
  | take (kind : TokenKind)
  /-- Leave the repetition, or pass over the option. -/
  | leave
  /-- Refuse the token. -/
  | reject
deriving DecidableEq

namespace Action

/-- Whether an action goes into a repetition or option, or takes the token. -/
def enters : Action → Bool
  | descend _ | take _ => true
  | leave | reject => false

end Action

/-- What to do at each decision for each kind of token. -/
@[ext]
structure Table where
  action : Decision → TokenKind → Action

namespace Table

/-- The standard table. -/
def standard : Table where
  action
    | .moreGlobals, .var => .descend .varDecl
    | .moreGlobals, .function | .moreGlobals, .main | .moreGlobals, .leftBrace | .moreGlobals, .endOfInput => .leave
    | .moreGlobals, _ => .reject
    | .moreNames, .comma => .take .comma
    | .moreNames, _ => .leave
    | .firstDimension, .leftBracket => .descend .typeDim1
    | .firstDimension, _ => .leave
    | .secondDimension, .leftBracket => .descend .typeDim2
    | .secondDimension, _ => .leave
    | .thirdDimension, .leftBracket => .reject
    | .thirdDimension, _ => .leave
    | .moreFunctions, .function => .descend .functionDecls
    | .moreFunctions, .main | .moreFunctions, .leftBrace | .moreFunctions, .endOfInput => .leave
    | .moreFunctions, _ => .reject
    | .anyParams, .numberType | .anyParams, .booleanType => .descend .paramList
    | .anyParams, .rightParen | .anyParams, .var | .anyParams, .leftBrace => .leave
    | .anyParams, .function | .anyParams, .main | .anyParams, .endOfInput => .leave
    | .anyParams, _ => .reject
    | .moreParams, .comma => .take .comma
    | .moreParams, _ => .leave
    | .moreLocals, .var => .descend .varDecl
    | .moreLocals, .leftBrace | .moreLocals, .function | .moreLocals, .main | .moreLocals, .endOfInput => .leave
    | .moreLocals, _ => .reject
    | .moreStatements, .semicolon => .descend .statement
    | .moreStatements, .rightBrace | .moreStatements, .function => .leave
    | .moreStatements, .main | .moreStatements, .endOfInput => .leave
    | .moreStatements, _ => .reject
    | .basicType, .numberType => .take .numberType
    | .basicType, .booleanType => .take .booleanType
    | .basicType, _ => .reject

/-- The table with another action at one entry. -/
def set (t : Table) (d : Decision) (k : TokenKind) (a : Action) : Table where
  action d' k' := if d' = d ∧ k' = k then a else t.action d' k'

/-- The actions of a decision, in the order of the kinds. -/
def row (t : Table) (d : Decision) : List Action := TokenKind.all.map (t.action d)

/-- The kinds that enter at a decision. -/
def expected (t : Table) (d : Decision) : KindSet := ⟨fun k => (t.action d k).enters⟩

/-- Whether a kind is refused at a decision. -/
def refuses (t : Table) (d : Decision) (k : TokenKind) : Bool := t.action d k == .reject

/-- The kinds that are not refused at a decision. -/
def accepted (t : Table) (d : Decision) : KindSet := ⟨fun k => !t.refuses d k⟩

/-- Two tables are equal when all their rows are. -/
theorem eq_iff_rows (t u : Table) : t = u ↔ ∀ d ∈ Decision.all, t.row d = u.row d := by
  refine ⟨fun h d _ => by rw [h], fun h => ?_⟩
  ext d k
  exact List.map_inj_left.1 (h d (Decision.mem_all d)) k (TokenKind.mem_all k)

instance : DecidableEq Table := fun t u => decidable_of_iff _ (eq_iff_rows t u).symm

end Table

end QuillFrontEnd
