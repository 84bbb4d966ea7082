import QuillFrontEnd.Token

/-!
# Token lists

A token list is what a parser reads: tokens that are not the end of the input, and then one token that is, the sentinel. The
type keeps that shape, so there is always a token to look at, and `TokenList.ofTokens` makes a token list of any tokens.
-/

namespace QuillFrontEnd

/-- A list of tokens that ends with the only end-of-input token in it. -/
structure TokenList where
  /-- The tokens before the sentinel. -/
  body : List Token
  /-- The token at the end of the input. -/
  sentinel : Token
  /-- No token before the sentinel marks the end of the input. -/
  body_isEnd : ∀ t ∈ body, t.isEnd = false
  /-- The sentinel marks the end of the input. -/
  sentinel_isEnd : sentinel.isEnd = true

namespace TokenList

/-- All tokens of a token list, with the sentinel at the end. -/
def toList (ts : TokenList) : List Token := ts.body ++ [ts.sentinel]

/-- The number of tokens, with the sentinel. -/
def size (ts : TokenList) : Nat := ts.toList.length

/-- The token at a place, counted from 0, if the list is that long. -/
def get? (ts : TokenList) (i : Nat) : Option Token := ts.toList[i]?

/-- The kinds of the tokens, with that of the sentinel. -/
def kinds (ts : TokenList) : List TokenKind := ts.toList.map Token.kind

/-- The sentinel that is put after tokens without one: it is empty, at the end of the last token and at its position, or at the
start of the text where there is no token. -/
def sentinelAfter (body : List Token) : Token :=
  match body.getLast? with
  | some last => ⟨.endOfInput, "", .point last.span.stop, last.position⟩
  | none => ⟨.endOfInput, "", .zero, .first⟩

theorem sentinelAfter_isEnd (body : List Token) : (sentinelAfter body).isEnd = true := by
  unfold sentinelAfter
  split <;> rfl

/-- The sentinel of a list of tokens: the last end-of-input token in it, or else the one that is put after the others. -/
def sentinelOf (tokens : List Token) : Token :=
  match (tokens.filter Token.isEnd).getLast? with
  | some last => last
  | none => sentinelAfter tokens

theorem sentinelOf_isEnd (tokens : List Token) : (sentinelOf tokens).isEnd = true := by
  unfold sentinelOf
  split
  case h_1 last h => exact (List.mem_filter.1 (List.mem_of_getLast? h)).2
  case h_2 => exact sentinelAfter_isEnd tokens

/-- The token list of any tokens: those that do not mark the end of the input, in order, and then the sentinel. -/
def ofTokens (tokens : List Token) : TokenList where
  body := tokens.filter fun t => !t.isEnd
  sentinel := sentinelOf tokens
  body_isEnd t ht := by simpa using (List.mem_filter.1 ht).2
  sentinel_isEnd := sentinelOf_isEnd tokens

/-- A token list is made of its own tokens. -/
theorem ofTokens_toList (ts : TokenList) : ofTokens ts.toList = ts := by
  obtain ⟨body, sentinel, hbody, hsentinel⟩ := ts
  have hfilter : (body ++ [sentinel]).filter (fun t => !t.isEnd) = body := by
    rw [List.filter_append, List.filter_eq_self.2 (by simpa using hbody)]
    simp [hsentinel]
  have hlast : ((body ++ [sentinel]).filter Token.isEnd).getLast? = some sentinel := by
    rw [List.filter_append, List.filter_eq_nil_iff.2 (by simpa using hbody)]
    simp [hsentinel]
  simp only [ofTokens, toList, sentinelOf, hfilter, hlast]

/-- Tokens of the given kinds on one line, one space apart, from a byte offset on. -/
def layOut (offset : Nat) : List TokenKind → List Token
  | [] => []
  | k :: ks =>
    let width := k.sample.utf8ByteSize
    ⟨k, k.sample, ⟨offset, offset + width⟩, ⟨1, offset + 1⟩⟩ :: layOut (offset + width + 1) ks

/-- The token list of the given kinds: the shortest text of each kind, one space apart on the first line. -/
def ofKinds (kinds : List TokenKind) : TokenList := ofTokens (layOut 0 kinds)

end TokenList

end QuillFrontEnd
