import QuillFrontEnd.Token.TokenList

/-!
# Reading a token list

A cursor stands in front of one token of a token list. It looks at that token and no further, and moves over it; it never moves
past the sentinel, so there is always a token in front of it.
-/

namespace QuillFrontEnd

/-- A place in a token list: how many tokens lie behind it, which lie ahead before the sentinel, and the sentinel. -/
structure Cursor where
  position : Nat
  rest : List Token
  sentinel : Token

namespace Cursor

/-- The cursor in front of the first token. -/
def ofTokenList (ts : TokenList) : Cursor := ⟨0, ts.body, ts.sentinel⟩

/-- The token in front of the cursor. -/
def peek (c : Cursor) : Token := c.rest.headD c.sentinel

/-- Moves over the token in front of the cursor: that token, and the cursor after it; at the sentinel it stays. -/
def advance (c : Cursor) : Token × Cursor :=
  (c.peek, match c.rest with
    | [] => c
    | _ :: rest => ⟨c.position + 1, rest, c.sentinel⟩)

/-- Whether the token in front of the cursor marks the end of the input. -/
def atEnd (c : Cursor) : Bool := c.peek.isEnd

end Cursor

end QuillFrontEnd
