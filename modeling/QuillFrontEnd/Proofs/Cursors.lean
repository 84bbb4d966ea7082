import QuillFrontEnd.Token.Cursor
import Mathlib.Data.List.Basic

/-!
# Cursors at places of a token list

However the ends of the input are spread over some tokens, the token list of these has one at its end and no other. So a cursor that
moves over all tokens but those that mark the end of the input never leaves the list: after any number of advances it stands at the
place of that number, or at the sentinel, and the token in front of it is the token at that place.
-/

namespace QuillFrontEnd

variable {ts : TokenList} {i : Nat}

namespace TokenList

theorem size_eq (ts : TokenList) : ts.size = ts.body.length + 1 := by
  rw [size, toList, List.length_append, List.length_singleton]

/-- The sentinel of a list of tokens is the last of them that marks the end of the input. -/
theorem sentinelOf_append_cons {front back : List Token} {last : Token} (hlast : last.isEnd = true)
    (hback : ∀ t ∈ back, t.isEnd = false) : sentinelOf (front ++ last :: back) = last := by
  have hnone : back.filter Token.isEnd = [] := List.filter_eq_nil_iff.2 fun t ht => by simp [hback t ht]
  rw [sentinelOf, List.filter_append, List.filter_cons_of_pos hlast, hnone, List.getLast?_concat]

/-- The cursor in front of the token at a place. -/
def cursorAt (ts : TokenList) (i : Nat) : Cursor := ⟨i, ts.body.drop i, ts.sentinel⟩

/-- In front of a cursor is the token at its place. -/
theorem get?_cursorAt (h : i ≤ ts.body.length) : ts.get? i = some (ts.cursorAt i).peek := by
  rw [get?, toList, cursorAt, Cursor.peek]
  rcases Nat.lt_or_eq_of_le h with hlt | rfl
  · rw [List.getElem?_append_left hlt, List.drop_eq_getElem_cons hlt, List.getElem?_eq_getElem hlt, List.headD_cons]
  · rw [List.getElem?_concat_length, List.drop_length, List.headD_nil]

/-- A cursor is in front of the sentinel only at the last place. -/
theorem atEnd_cursorAt (h : i ≤ ts.body.length) : (ts.cursorAt i).atEnd = true ↔ i = ts.body.length := by
  rw [Cursor.atEnd, cursorAt, Cursor.peek]
  rcases Nat.lt_or_eq_of_le h with hlt | rfl
  · rw [List.drop_eq_getElem_cons hlt, List.headD_cons, ts.body_isEnd _ (List.getElem_mem hlt)]
    simp only [Bool.false_eq_true, false_iff]
    omega
  · rw [List.drop_length, List.headD_nil, ts.sentinel_isEnd]
    simp

/-- An advance gives the token in front of the cursor, and leads to the next place, or from the last place to the last place. -/
theorem advance_cursorAt (h : i ≤ ts.body.length) :
    (ts.cursorAt i).advance = ((ts.cursorAt i).peek, ts.cursorAt (min (i + 1) ts.body.length)) := by
  rw [Cursor.advance]
  refine congrArg (Prod.mk _) ?_
  rw [cursorAt]
  rcases Nat.lt_or_eq_of_le h with hlt | rfl
  · rw [List.drop_eq_getElem_cons hlt, Nat.min_eq_left hlt]
    rfl
  · rw [List.drop_length, Nat.min_eq_right (Nat.le_succ _)]
    exact congrArg (Cursor.mk _ · _) List.drop_length.symm

end TokenList

namespace Cursor

/-- What a cursor is asked for: the token in front of it, without moving or moving over it. -/
inductive Request where
  | peek
  | advance
deriving DecidableEq

/-- The token that is given for a request, and the cursor after it. -/
def perform (c : Cursor) : Request → Token × Cursor
  | .peek => (c.peek, c)
  | .advance => c.advance

/-- The cursor after some requests. -/
def performAll (c : Cursor) (rs : List Request) : Cursor := rs.foldl (fun c r => (c.perform r).2) c

/-- The requests, each with the token that is given for it. -/
def answers (c : Cursor) : List Request → List (Request × Token)
  | [] => []
  | r :: rs => (r, (c.perform r).1) :: (c.perform r).2.answers rs

/-- The tokens that are given for the advances among some requests. -/
def advanced (c : Cursor) (rs : List Request) : List Token :=
  ((c.answers rs).filter fun a => a.1 = .advance).map Prod.snd

/-- Requests lead to the place that is as many places on as there are advances among them, or to the last place. -/
theorem performAll_cursorAt (h : i ≤ ts.body.length) (rs : List Request) :
    (ts.cursorAt i).performAll rs = ts.cursorAt (min (i + rs.count .advance) ts.body.length) := by
  induction rs generalizing i with
  | nil => rw [performAll, List.foldl_nil, List.count_nil, Nat.add_zero, Nat.min_eq_left h]
  | cons r rs ih =>
    cases r with
    | peek => exact ih h
    | advance =>
      have hstep : (ts.cursorAt i).performAll (.advance :: rs) = (ts.cursorAt i).advance.2.performAll rs := rfl
      rw [hstep, TokenList.advance_cursorAt h, ih (Nat.min_le_right _ _), List.count_cons_self]
      congr 1
      omega

/-- Each advance gives the token at the place to which the advances before it have led. -/
theorem getElem?_advanced (h : i ≤ ts.body.length) (rs : List Request) {j : Nat} (hj : j < rs.count .advance) :
    ((ts.cursorAt i).advanced rs)[j]? = ts.get? (min (i + j) ts.body.length) := by
  induction rs generalizing i j with
  | nil => simp at hj
  | cons r rs ih =>
    cases r with
    | peek => exact ih h (by simpa using hj)
    | advance =>
      have hstep : (ts.cursorAt i).advanced (.advance :: rs) =
          (ts.cursorAt i).advance.1 :: (ts.cursorAt i).advance.2.advanced rs := rfl
      rw [List.count_cons_self] at hj
      rw [hstep, TokenList.advance_cursorAt h]
      cases j with
      | zero =>
        dsimp only
        rw [List.getElem?_cons_zero, Nat.add_zero, Nat.min_eq_left h, TokenList.get?_cursorAt h]
      | succ j =>
        rw [List.getElem?_cons_succ, ih (Nat.min_le_right _ _) (by omega)]
        congr 1
        omega

end Cursor

open Cursor

/-- Whatever the tokens are, their token list has those that do not mark the end of the input, in order, and then a sentinel, which is
the last of the others if there is one; and making a token list of its tokens again changes nothing. A cursor on it that was asked
for the token in front of it any number of times, and was moved over it `n` times, is at the place `n` or at the last place, the token
in front of it is the token at that place, and is the sentinel if and only if `n` is at least the last place; and each advance gave the
token over which it moved. -/
theorem cursor_stays_in_list (tokens : List Token) :
    let ts := TokenList.ofTokens tokens
    (ts.toList = tokens.filter (fun t => !t.isEnd) ++ [ts.sentinel] ∧ ts.sentinel.isEnd = true ∧
      ∀ front last back, tokens = front ++ last :: back → last.isEnd = true → (∀ t ∈ back, t.isEnd = false) →
        ts.sentinel = last) ∧
    TokenList.ofTokens ts.toList = ts ∧
    ∀ rs : List Request,
      let c := (ofTokenList ts).performAll rs
      let n := rs.count .advance
      c.position = min n (ts.size - 1) ∧ c.position < ts.size ∧ ts.get? c.position = some c.peek ∧
      (∀ k, 1 ≤ k → k ≤ n → ∃ t, ((ofTokenList ts).advanced rs)[k - 1]? = some t ∧ ts.get? (min k ts.size - 1) = some t) ∧
      (c.atEnd = true ↔ ts.size - 1 ≤ n) := by
  intro ts
  refine ⟨⟨rfl, ts.sentinel_isEnd, ?_⟩, ts.ofTokens_toList, fun rs => ?_⟩
  · rintro front last back rfl hlast hback
    exact TokenList.sentinelOf_append_cons hlast hback
  · have hsize := ts.size_eq
    have hplace : (ofTokenList ts).performAll rs = ts.cursorAt (min (rs.count .advance) ts.body.length) := by
      have h := performAll_cursorAt (Nat.zero_le ts.body.length) rs
      rwa [Nat.zero_add] at h
    have hle : min (rs.count .advance) ts.body.length ≤ ts.body.length := Nat.min_le_right _ _
    have hposition : (ts.cursorAt (min (rs.count .advance) ts.body.length)).position = min (rs.count .advance) ts.body.length := rfl
    dsimp only
    rw [hplace, hposition, TokenList.get?_cursorAt hle, TokenList.atEnd_cursorAt hle]
    refine ⟨by omega, by omega, rfl, fun k hk hkn => ?_, by omega⟩
    refine ⟨(ts.cursorAt (min (k - 1) ts.body.length)).peek, ?_, ?_⟩
    · have h := getElem?_advanced (Nat.zero_le ts.body.length) rs (j := k - 1) (by omega)
      rw [Nat.zero_add, TokenList.get?_cursorAt (Nat.min_le_right _ _)] at h
      exact h
    · rw [← TokenList.get?_cursorAt (Nat.min_le_right _ _)]
      congr 1
      omega

/-- Two tokens with three ends of the input before, between and after them: a cursor that is moved four times and looked at in between. -/
theorem cursor_stays_in_list_scattered :
    let first : Token := .placeholder .main
    let second : Token := .placeholder .leftBrace
    let last : Token := ⟨.endOfInput, "", .point 7, ⟨1, 8⟩⟩
    let ts := TokenList.ofTokens [.placeholder .endOfInput, first, .placeholder .endOfInput, second, last]
    let rs : List Request := [.peek, .advance, .advance, .peek, .advance, .advance, .peek]
    last.isEnd = true ∧ ts.sentinel = last ∧ ((ofTokenList ts).performAll rs).position = 2 ∧
      (∃ t, ((ofTokenList ts).advanced rs)[3]? = some t ∧ ts.get? 2 = some t) ∧
      ((ofTokenList ts).performAll rs).atEnd = true := by
  intro first second last ts rs
  obtain ⟨⟨-, -, hlast⟩, -, hcursor⟩ :=
    cursor_stays_in_list [.placeholder .endOfInput, first, .placeholder .endOfInput, second, last]
  have hend : last.isEnd = true := rfl
  obtain ⟨hposition, -, -, hadvanced, hatEnd⟩ := hcursor rs
  have hsentinel : ts.sentinel = last :=
    hlast [.placeholder .endOfInput, first, .placeholder .endOfInput, second] last [] rfl hend (by simp)
  exact ⟨hend, hsentinel, hposition, hadvanced 4 (by decide) (by decide), hatEnd.2 (by decide)⟩

end QuillFrontEnd
