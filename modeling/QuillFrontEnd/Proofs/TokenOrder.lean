import QuillFrontEnd.Proofs.Tiling

/-!
# The order of tokens

The tokens that lexing gives come one after the other, by their byte offsets and by their lines and columns as well, and so does
the sentinel after them. For the columns this takes a text that is not too large, since columns stop counting at `maxOffset`. The
tokens that are laid out for given kinds are in the order of their offsets too.
-/

namespace QuillFrontEnd

open QuillFrontEnd.Text QuillFrontEnd.Lexing

/-- Tokens one after the other, none of them empty, with an empty sentinel after them. -/
structure TokenList.Ordered (ts : TokenList) : Prop where
  /-- No token before the sentinel is empty. -/
  start_lt_stop : ∀ t ∈ ts.body, t.span.start < t.span.stop
  /-- The sentinel is empty. -/
  sentinel : ts.sentinel.span.start = ts.sentinel.span.stop
  /-- Each token starts where the ones before it have ended or later, and so does the sentinel. -/
  apart : ts.toList.Pairwise fun a b => a.span.stop ≤ b.span.start

/-- Each token starts after the one before it, the sentinel included. -/
def TokenList.StartsIncrease (ts : TokenList) : Prop := ts.toList.Pairwise fun a b => a.span.start < b.span.start

instance (ts : TokenList) : Decidable ts.StartsIncrease :=
  inferInstanceAs (Decidable (ts.toList.Pairwise fun a b => a.span.start < b.span.start))

/-- Tokens that are not empty start one after the other if they lie apart. -/
theorem TokenList.Ordered.startsIncrease {ts : TokenList} (h : ts.Ordered) : ts.StartsIncrease := by
  obtain ⟨hbody, -, hsentinel⟩ := List.pairwise_append.1 h.apart
  refine List.pairwise_append.2 ⟨?_, List.pairwise_singleton _ _, fun a ha b hb => ?_⟩
  · exact hbody.imp_of_mem fun {a b} ha _ hab => Nat.lt_of_lt_of_le (h.start_lt_stop a ha) hab
  · exact Nat.lt_of_lt_of_le (h.start_lt_stop a ha) (hsentinel a ha b hb)

/-- What holds of any two tokens in their order holds of the tokens at two places in their order. -/
theorem TokenList.rel_of_get? {R : Token → Token → Prop} {ts : TokenList} (h : ts.toList.Pairwise R) {i j : Nat} {a b : Token}
    (ha : ts.get? i = some a) (hb : ts.get? j = some b) (hij : i < j) : R a b := by
  obtain ⟨hi, rfl⟩ := List.getElem?_eq_some_iff.1 ha
  obtain ⟨hj, rfl⟩ := List.getElem?_eq_some_iff.1 hb
  exact List.pairwise_iff_getElem.1 h i j hi hj hij

theorem TokenList.StartsIncrease.start_lt {ts : TokenList} (h : ts.StartsIncrease) {i j : Nat} {a b : Token}
    (ha : ts.get? i = some a) (hb : ts.get? j = some b) (hij : i < j) : a.span.start < b.span.start := rel_of_get? h ha hb hij

/-! ## Positions -/

namespace Position

/-- The strict order of reading. -/
def Before (p q : Position) : Prop := p.line < q.line ∨ p.line = q.line ∧ p.column < q.column

variable {p q r : Position}

theorem notAfter_iff : p.notAfter q = true ↔ p.line < q.line ∨ p.line = q.line ∧ p.column ≤ q.column := by
  simp [notAfter]

/-- A position is before another exactly if the other is not at or before it. -/
theorem before_iff : p.Before q ↔ q.notAfter p = false := by
  rw [← Bool.not_eq_true, notAfter_iff, Before]
  omega

theorem Before.notAfter (h : p.Before q) : p.notAfter q = true := by
  rw [notAfter_iff]
  unfold Before at h
  omega

theorem Before.trans_notAfter (h : p.Before q) (h' : q.notAfter r = true) : p.Before r := by
  rw [notAfter_iff] at h'
  unfold Before at h ⊢
  omega

@[simp] theorem notAfter_refl (p : Position) : p.notAfter p = true := by simp [notAfter_iff]

/-- A character takes at most one column. -/
theorem column_after_le (p : Position) (text : List Char) : (p.after text).column ≤ p.column + text.length := by
  induction text generalizing p with
  | nil => exact Nat.le_refl _
  | cons c text ih =>
    have hnext : (p.next c).column ≤ p.column + 1 := by
      unfold next
      split
      · exact Nat.le_add_left 1 p.column
      · exact Nat.min_le_left _ _
    have hlater := ih (p.next c)
    rw [List.length_cons]
    exact Nat.le_trans hlater (by omega)

/-- What comes after some text is at a later position, if there are columns for all of the text. -/
theorem before_after {text : List Char} (hne : text ≠ []) (h : p.column + text.length ≤ maxOffset) :
    p.Before (p.after text) := by
  induction text generalizing p with
  | nil => exact absurd rfl hne
  | cons c text ih =>
    rw [List.length_cons] at h
    have hnext : p.Before (p.next c) := by
      unfold next Before
      split
      · exact .inl (Nat.lt_succ_self _)
      · refine .inr ⟨rfl, ?_⟩
        dsimp only
        omega
    by_cases htext : text = []
    · subst htext
      exact hnext
    · have hcolumn := p.column_after_le [c]
      have hlater : (p.next c).Before ((p.next c).after text) := ih htext (by
        change (p.next c).column ≤ p.column + 1 at hcolumn
        omega)
      exact hnext.trans_notAfter hlater.notAfter

end Position

/-- Each token is at a later position than the one before it, the sentinel included. -/
def TokenList.PositionsIncrease (ts : TokenList) : Prop := ts.toList.Pairwise fun a b => a.position.Before b.position

theorem TokenList.PositionsIncrease.before {ts : TokenList} (h : ts.PositionsIncrease) {i j : Nat} {a b : Token}
    (ha : ts.get? i = some a) (hb : ts.get? j = some b) (hij : i < j) : a.position.Before b.position :=
  rel_of_get? h ha hb hij

/-! ## Lexed tokens -/

theorem text_ne_nil_of_mem_pieces {text : List Char} : ∀ piece ∈ pieces text, piece.text ≠ [] := by
  fun_induction pieces text with
  | case1 => simp
  | case2 c cs ih => exact List.forall_mem_cons.2 ⟨nextPiece_ne_nil c cs, ih⟩

/-- The positions of the tokens among pieces, and the one after all pieces, are in order, and none is before the first piece. -/
theorem positions_locate (ps : List Piece) (hne : ∀ piece ∈ ps, piece.text ≠ []) (offset : Nat) (p : Position)
    (h : p.column + (ps.flatMap Piece.text).length ≤ maxOffset) :
    ((locate offset p ps).map Token.position ++ [p.after (ps.flatMap Piece.text)]).Pairwise Position.Before ∧
      ∀ q ∈ (locate offset p ps).map Token.position ++ [p.after (ps.flatMap Piece.text)], p.notAfter q = true := by
  induction ps generalizing offset p with
  | nil => exact ⟨List.pairwise_singleton _ _, by simp [locate, Position.after]⟩
  | cons piece ps ih =>
    rw [List.forall_mem_cons] at hne
    rw [List.flatMap_cons, List.length_append] at h
    have hcolumn := p.column_after_le piece.text
    have hbefore : p.Before (p.after piece.text) := Position.before_after hne.1 (by omega)
    obtain ⟨hpairs, hall⟩ := ih hne.2 (offset + byteLength piece.text) (p.after piece.text) (by omega)
    have hlater : ∀ q ∈ (locate (offset + byteLength piece.text) (p.after piece.text) ps).map Token.position ++
        [(p.after piece.text).after (ps.flatMap Piece.text)], p.Before q :=
      fun q hq => hbefore.trans_notAfter (hall q hq)
    rw [List.flatMap_cons, Position.after_append, locate]
    cases piece.kind with
    | none => exact ⟨hpairs, fun q hq => (hlater q hq).notAfter⟩
    | some kind =>
      refine ⟨.cons hlater hpairs, List.forall_mem_cons.2 ⟨p.notAfter_refl, fun q hq => (hlater q hq).notAfter⟩⟩

theorem length_le_byteLength (text : List Char) : text.length ≤ byteLength text := by
  induction text with
  | nil => exact Nat.le_refl _
  | cons c text ih =>
    have hc := c.utf8Size_pos
    rw [List.length_cons, byteLength]
    omega

/-- The tokens of a text that is lexed are those among its pieces. -/
theorem body_of_lex {source : String} {out : LexOutput} (h : lex source = .ok out) :
    out.tokens.body = locate 0 .first (pieces source.toList) := by
  obtain ⟨-, rfl⟩ := lex_eq_ok_iff.1 h
  -- The sentinel is not among the tokens before it, and no piece marks the end of the input.
  have hsentinel : ∀ span position, [(⟨.endOfInput, "", span, position⟩ : Token)].filter (fun t => !t.isEnd) = [] :=
    fun _ _ => rfl
  have hend : ∀ t ∈ locate 0 .first (pieces source.toList), (!t.isEnd) = true := by
    intro t ht
    obtain ⟨-, -, -, -, hkind, -⟩ := (tiled_locate 0 .first source.toList).cut_of_mem ht [] rfl
    simpa [Token.isEnd] using hkind
  simp only [TokenList.ofTokens, List.filter_append, hsentinel, List.append_nil]
  exact List.filter_eq_self.2 hend

/-- Lexed tokens are in the order of their positions, if the text is not too large for the columns. -/
theorem positionsIncrease_of_lex {source : String} {out : LexOutput} (hsize : source.utf8ByteSize < maxOffset)
    (hlex : lex source = .ok out) : out.tokens.PositionsIncrease := by
  obtain ⟨out', hlex', -, hsentinel, -⟩ := exists_tiled_of_lex (Nat.le_of_lt hsize)
  obtain rfl : out = out' := Except.ok.inj (hlex.symm.trans hlex')
  have hlength := length_le_byteLength source.toList
  rw [byteLength_toList] at hlength
  have hfits : Position.first.column + ((pieces source.toList).flatMap Piece.text).length ≤ maxOffset := by
    rw [flatMap_pieces]
    change 1 + source.toList.length ≤ maxOffset
    omega
  obtain ⟨hpairs, -⟩ := positions_locate _ text_ne_nil_of_mem_pieces 0 .first hfits
  have hlist : out.tokens.toList.map Token.position =
      out.tokens.body.map Token.position ++ [Position.first.after source.toList] := by
    rw [TokenList.toList, List.map_append, List.map_singleton, hsentinel]
  rw [flatMap_pieces, ← body_of_lex hlex, ← hlist] at hpairs
  exact List.pairwise_map.1 hpairs

/-- Lexed tokens lie one after the other. -/
theorem ordered_of_lex {source : String} {out : LexOutput} (hsize : source.utf8ByteSize ≤ maxOffset)
    (hlex : lex source = .ok out) : out.tokens.Ordered := by
  obtain ⟨out', hlex', htiled, hsentinel, -⟩ := exists_tiled_of_lex hsize
  obtain rfl : out = out' := Except.ok.inj (hlex.symm.trans hlex')
  refine ⟨fun t ht => (htiled.offset_le ht).2, by rw [hsentinel]; rfl, ?_⟩
  refine List.pairwise_append.2 ⟨htiled.ordered, List.pairwise_singleton _ _, fun a ha b hb => ?_⟩
  obtain ⟨front, after, htext, hspan, -⟩ := htiled.cut_of_mem ha [] rfl
  have hlength := congrArg byteLength htext
  rw [List.nil_append, byteLength_append, byteLength_append] at hlength
  rw [List.mem_singleton.1 hb, hsentinel, hspan, hlength]
  dsimp only [Span.point]
  omega

/-- Lexed tokens are in the order of their offsets. -/
theorem startsIncrease_of_lex {source : String} {out : LexOutput} (hsize : source.utf8ByteSize ≤ maxOffset)
    (hlex : lex source = .ok out) : out.tokens.StartsIncrease := (ordered_of_lex hsize hlex).startsIncrease

/-! ## Tokens that are laid out -/

/-- Laid-out tokens are not empty, and each starts after the ones before it have ended. -/
theorem TokenList.ordered_layOut (ks : List TokenKind) (hks : .endOfInput ∉ ks) (offset : Nat) :
    (layOut offset ks).Pairwise (fun a b => a.span.stop < b.span.start) ∧
      ∀ t ∈ layOut offset ks, t.isEnd = false ∧ offset ≤ t.span.start ∧ t.span.start < t.span.stop := by
  induction ks generalizing offset with
  | nil => exact ⟨.nil, nofun⟩
  | cons k ks ih =>
    rw [List.mem_cons, not_or] at hks
    obtain ⟨hpairs, hall⟩ := ih hks.2 (offset + k.sample.utf8ByteSize + 1)
    have hwidth : 0 < k.sample.utf8ByteSize := by
      cases k with
      | endOfInput => exact absurd rfl hks.1
      | _ => decide
    rw [layOut]
    refine ⟨.cons (fun t ht => ?_) hpairs, List.forall_mem_cons.2 ⟨⟨?_, ?_, ?_⟩, fun t ht => ?_⟩⟩
    · have hlater := (hall t ht).2.1
      dsimp only
      omega
    · simpa [Token.isEnd] using Ne.symm hks.1
    · exact Nat.le_refl _
    · dsimp only
      omega
    · obtain ⟨hend, hstart, hstop⟩ := hall t ht
      exact ⟨hend, by omega, hstop⟩

/-- The token list of given kinds is made of the laid-out tokens, with a sentinel put after them. -/
theorem TokenList.ofKinds_parts {ks : List TokenKind} (hks : .endOfInput ∉ ks) :
    (ofKinds ks).body = layOut 0 ks ∧ (ofKinds ks).sentinel = sentinelAfter (layOut 0 ks) := by
  obtain ⟨-, hall⟩ := ordered_layOut ks hks 0
  have hfilter : (layOut 0 ks).filter (fun t => !t.isEnd) = layOut 0 ks :=
    List.filter_eq_self.2 fun t ht => by rw [(hall t ht).1]; rfl
  have hnone : (layOut 0 ks).filter Token.isEnd = [] :=
    List.filter_eq_nil_iff.2 fun t ht => by rw [(hall t ht).1]; decide
  simp only [ofKinds, ofTokens, sentinelOf, hfilter, hnone, List.getLast?_nil, and_self]

/-- The tokens of given kinds lie one after the other. -/
theorem TokenList.ordered_ofKinds {ks : List TokenKind} (hks : .endOfInput ∉ ks) : (ofKinds ks).Ordered := by
  obtain ⟨hpairs, hall⟩ := ordered_layOut ks hks 0
  have hofKinds := ofKinds_parts hks
  generalize layOut 0 ks = body at hpairs hall hofKinds
  constructor
  case start_lt_stop =>
    rw [hofKinds.1]
    exact fun t ht => (hall t ht).2.2
  case sentinel =>
    rw [hofKinds.2, sentinelAfter]
    split <;> rfl
  case apart =>
    rw [toList, hofKinds.1, hofKinds.2]
    refine List.pairwise_append.2 ⟨hpairs.imp Nat.le_of_lt, List.pairwise_singleton _ _, fun a ha b hb => ?_⟩
    obtain ⟨front, last, rfl⟩ : ∃ front last, body = front ++ [last] := by
      simpa using (List.eq_nil_or_concat body).resolve_left (List.ne_nil_of_mem ha)
    have hsentinel : (sentinelAfter (front ++ [last])).span.start = last.span.stop := by
      simp [sentinelAfter, Span.point]
    rw [List.mem_singleton.1 hb, hsentinel]
    rcases List.mem_append.1 ha with ha | ha
    · have hbefore := (List.pairwise_append.1 hpairs).2.2 a ha last (by simp)
      have hlast := (hall last (by simp)).2.2
      omega
    · rw [List.mem_singleton.1 ha]

/-- The tokens of given kinds are in the order of their offsets. -/
theorem TokenList.startsIncrease_ofKinds {ks : List TokenKind} (hks : .endOfInput ∉ ks) : (ofKinds ks).StartsIncrease :=
  (ordered_ofKinds hks).startsIncrease

end QuillFrontEnd
