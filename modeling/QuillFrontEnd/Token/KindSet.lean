import QuillFrontEnd.Token.Kind

/-!
# Sets of token kinds

A set of kinds is its membership test. Sets are compared, counted and listed by going through the nineteen kinds in order.
-/

namespace QuillFrontEnd

/-- A set of token kinds, as the test for membership. -/
@[ext]
structure KindSet where
  contains : TokenKind → Bool

namespace KindSet

/-- The set without members. -/
def empty : KindSet := ⟨fun _ => false⟩

/-- The set of one kind. -/
def single (k : TokenKind) : KindSet := ⟨fun j => j == k⟩

/-- The set of the kinds in a list. -/
def ofList (ks : List TokenKind) : KindSet := ⟨fun j => ks.contains j⟩

/-- The set with one kind more. -/
def insert (s : KindSet) (k : TokenKind) : KindSet := ⟨fun j => j == k || s.contains j⟩

instance : Membership TokenKind KindSet := ⟨fun s k => s.contains k = true⟩

instance (k : TokenKind) (s : KindSet) : Decidable (k ∈ s) := inferInstanceAs (Decidable (s.contains k = true))

/-- The members in the order of the kinds. -/
def toList (s : KindSet) : List TokenKind := TokenKind.all.filter s.contains

/-- The number of members. -/
def size (s : KindSet) : Nat := s.toList.length

/-- Whether a set has no members. -/
def isEmpty (s : KindSet) : Bool := s.toList.isEmpty

/-- The only member, of a set that has exactly one. -/
def only? (s : KindSet) : Option TokenKind :=
  match s.toList with
  | [k] => some k
  | _ => none

theorem mem_iff {s : KindSet} {k : TokenKind} : k ∈ s ↔ s.contains k = true := Iff.rfl

theorem mem_toList {s : KindSet} {k : TokenKind} : k ∈ s.toList ↔ k ∈ s := by
  rw [toList, List.mem_filter, mem_iff, and_iff_right (TokenKind.mem_all k)]

/-- Two sets are equal when every kind is in both or in neither. -/
theorem eq_iff_all (s t : KindSet) : s = t ↔ ∀ k ∈ TokenKind.all, s.contains k = t.contains k := by
  refine ⟨fun h k _ => by rw [h], fun h => ?_⟩
  ext k
  rw [h k (TokenKind.mem_all k)]

instance : DecidableEq KindSet := fun s t => decidable_of_iff _ (eq_iff_all s t).symm

/-- A list of alternatives in a sentence: `a`, `a or b`, or `a, b, or c`; and `nothing` where there are none. -/
def alternatives : List String → String
  | [] => "nothing"
  | [one] => one
  | [one, two] => one ++ " or " ++ two
  | one :: more => ", ".intercalate (one :: more.dropLast) ++ ", or " ++ more.getLast?.getD ""

/-- The members of a set as alternatives in a sentence. -/
def phrase (s : KindSet) : String := alternatives (s.toList.map TokenKind.displayName)

end KindSet

end QuillFrontEnd
