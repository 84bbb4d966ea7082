import QuillFrontEnd.Text.Slice
import Mathlib.Data.List.DropRight
import Mathlib.Data.List.TakeWhile

/-!
# Lines of a text

A text is cut into parts at its line feeds, and its lines are made of these parts. Where a text is cut in two, the part around the
cut is found by counting the line feeds before it; and a text put together of lines that were ended with line feeds is cut into
these lines again.
-/

namespace QuillFrontEnd.Text

variable {before after : List Char}

/-! ## Parts between line feeds -/

theorem ne_of_notMem {cs : List Char} (h : '\n' ∉ cs) : ∀ c ∈ cs, (c != '\n') = true :=
  fun _ hc => bne_iff_ne.2 fun heq => h (heq ▸ hc)

theorem splitLines_ne_nil (text : List Char) : splitLines text ≠ [] := by
  cases text with
  | nil => exact List.cons_ne_nil _ _
  | cons c cs =>
    rw [splitLines]
    split
    · exact List.cons_ne_nil _ _
    · split <;> exact List.cons_ne_nil _ _

/-- A text that is cut at a line feed has the parts of what stands before it and then those of what stands after it. -/
theorem splitLines_line (cs ds : List Char) : splitLines (cs ++ '\n' :: ds) = splitLines cs ++ splitLines ds := by
  induction cs with
  | nil => rfl
  | cons c cs ih =>
    rw [List.cons_append, splitLines, splitLines, ih]
    split
    · rfl
    · obtain ⟨line, lines, hlines⟩ := List.exists_cons_of_ne_nil (splitLines_ne_nil cs)
      rw [hlines]
      rfl

/-- The parts of a text have its characters only. -/
theorem mem_of_mem_splitLines {text part : List Char} (hpart : part ∈ splitLines text) {c : Char} (hc : c ∈ part) : c ∈ text := by
  induction text generalizing part with
  | nil =>
    obtain rfl := List.mem_singleton.1 hpart
    exact hc
  | cons d ds ih =>
    rw [splitLines] at hpart
    split at hpart
    · rcases List.mem_cons.1 hpart with rfl | hpart
      · cases hc
      · exact List.mem_cons_of_mem d (ih hpart hc)
    · obtain ⟨line, lines, hlines⟩ := List.exists_cons_of_ne_nil (splitLines_ne_nil ds)
      rw [hlines] at hpart ih
      rcases List.mem_cons.1 hpart with rfl | hpart
      · rcases List.mem_cons.1 hc with rfl | hc
        · exact List.mem_cons_self
        · exact List.mem_cons_of_mem d (ih List.mem_cons_self hc)
      · exact List.mem_cons_of_mem d (ih (List.mem_cons_of_mem line hpart) hc)

theorem length_splitLines (text : List Char) : (splitLines text).length = text.count '\n' + 1 := by
  induction text with
  | nil => rfl
  | cons c cs ih =>
    rw [splitLines, List.count_cons]
    split
    · rename_i hc
      rw [List.length_cons, ih, hc, beq_self_eq_true, if_pos rfl]
    · rename_i hc
      obtain ⟨line, lines, hlines⟩ := List.exists_cons_of_ne_nil (splitLines_ne_nil cs)
      rw [hlines, List.length_cons] at ih
      simpa [hlines, hc] using ih

/-- The first part of a text goes up to the first line feed. -/
theorem head?_splitLines (text : List Char) : (splitLines text).head? = some (text.takeWhile (· != '\n')) := by
  induction text with
  | nil => rfl
  | cons c cs ih =>
    rw [splitLines, List.takeWhile_cons]
    split
    · rename_i hc
      rw [hc]
      rfl
    · rename_i hc
      obtain ⟨line, lines, hlines⟩ := List.exists_cons_of_ne_nil (splitLines_ne_nil cs)
      rw [hlines, List.head?_cons, Option.some.injEq] at ih
      simp [hlines, hc, ih]

/-- Where a text is cut in two, the part around the cut is the one after as many others as there are line feeds before it. It goes
back to the last line feed and on to the next. -/
theorem getElem?_splitLines (before after : List Char) : (splitLines (before ++ after))[before.count '\n']? =
    some (before.rtakeWhile (· != '\n') ++ after.takeWhile (· != '\n')) := by
  induction before using List.reverseRecOn generalizing after with
  | nil =>
    rw [List.nil_append, List.count_nil, ← List.head?_eq_getElem?, head?_splitLines]
    rfl
  | append_singleton before c ih =>
    rw [List.append_assoc, List.singleton_append]
    by_cases hc : c = '\n'
    · have hcount : (before ++ ['\n']).count '\n' = (splitLines before).length := by
        rw [length_splitLines, List.count_append, List.count_singleton_self]
      rw [hc, splitLines_line, hcount, List.getElem?_append_right (Nat.le_refl _), Nat.sub_self, ← List.head?_eq_getElem?,
        head?_splitLines, List.rtakeWhile_concat_neg _ _ _ (by decide), List.nil_append]
    · have hcount : (before ++ [c]).count '\n' = before.count '\n' := by simp [hc]
      rw [hcount, ih, List.takeWhile_cons_of_pos (by simpa using hc), List.rtakeWhile_concat_pos _ _ _ (by simpa using hc),
        List.append_assoc, List.singleton_append]

/-- A text without line feeds is one part. -/
theorem splitLines_of_notMem {cs : List Char} (h : '\n' ∉ cs) : splitLines cs = [cs] := by
  have hlength := length_splitLines cs
  rw [List.count_eq_zero.2 h, Nat.zero_add] at hlength
  obtain ⟨line, hline⟩ := List.length_eq_one_iff.1 hlength
  have hhead := head?_splitLines cs
  rw [hline, List.takeWhile_eq_self_iff.2 (ne_of_notMem h)] at hhead
  rw [hline, Option.some.inj hhead]

/-- Lines that are each ended with a line feed are the parts of the text, and nothing comes after the last. -/
theorem splitLines_ended {ls : List (List Char)} (h : ∀ l ∈ ls, '\n' ∉ l) :
    splitLines (ls.flatMap fun l => l ++ ['\n']) = ls ++ [[]] := by
  induction ls with
  | nil => rfl
  | cons l ls ih =>
    obtain ⟨hl, hls⟩ := List.forall_mem_cons.1 h
    rw [List.flatMap_cons, List.append_assoc, List.singleton_append, splitLines_line, splitLines_of_notMem hl, ih hls]
    rfl

/-! ## Lines -/

/-- The lines of a text from its parts: all but the last were ended by a line feed, and the last is no line if it is empty. -/
theorem exists_lines_eq (text : List Char) : ∃ ps p, splitLines text = ps ++ [p] ∧
    lines text = ps.map dropReturn ++ if p = [] then [] else [p] := by
  have hparts := List.dropLast_append_getLast (splitLines_ne_nil text)
  refine ⟨_, _, hparts.symm, ?_⟩
  rw [lines, List.getLast?_eq_some_getLast (splitLines_ne_nil text)]
  cases (splitLines text).getLast (splitLines_ne_nil text) with
  | nil => exact (List.append_nil _).symm
  | cons c cs => rfl

/-- The lines of a text have its characters only. -/
theorem mem_of_mem_lines {text line : List Char} (hline : line ∈ lines text) {c : Char} (hc : c ∈ line) : c ∈ text := by
  obtain ⟨ps, p, hparts, hlines⟩ := exists_lines_eq text
  have hpart {part : List Char} (h : part ∈ ps ++ [p]) (hc : c ∈ part) : c ∈ text := mem_of_mem_splitLines (hparts ▸ h) hc
  rw [hlines] at hline
  rcases List.mem_append.1 hline with hline | hline
  · obtain ⟨part, hmem, rfl⟩ := List.mem_map.1 hline
    refine hpart (List.mem_append_left _ hmem) ?_
    unfold dropReturn at hc
    split at hc
    · exact List.dropLast_subset _ hc
    · exact hc
  · split at hline
    · cases hline
    · obtain rfl := List.mem_singleton.1 hline
      exact hpart (List.mem_append_right _ List.mem_cons_self) hc

/-- A line that a line feed ends is shown without a carriage return before it. -/
theorem getElem?_lines_of_mem (hafter : '\n' ∈ after) : (lines (before ++ after))[before.count '\n']? =
    some (dropReturn (before.rtakeWhile (· != '\n') ++ after.takeWhile (· != '\n'))) := by
  obtain ⟨ps, p, hparts, hlines⟩ := exists_lines_eq (before ++ after)
  have hpart := getElem?_splitLines before after
  have hlength := length_splitLines (before ++ after)
  have hcount : 0 < after.count '\n' := List.count_pos_iff.2 hafter
  rw [hparts, List.length_append, List.length_singleton, List.count_append] at hlength
  rw [hparts, List.getElem?_append_left (by omega)] at hpart
  rw [hlines, List.getElem?_append_left (by rw [List.length_map]; omega), List.getElem?_map, hpart, Option.map_some]

/-- What comes after the last line feed is shown as it is, unless it is nothing. -/
theorem getElem?_lines_of_notMem (hafter : '\n' ∉ after) : (lines (before ++ after))[before.count '\n']? =
    if before.rtakeWhile (· != '\n') ++ after = [] then none else some (before.rtakeWhile (· != '\n') ++ after) := by
  obtain ⟨ps, p, hparts, hlines⟩ := exists_lines_eq (before ++ after)
  have hpart := getElem?_splitLines before after
  have hlength := length_splitLines (before ++ after)
  have htake : after.takeWhile (· != '\n') = after := List.takeWhile_eq_self_iff.2 (ne_of_notMem hafter)
  rw [hparts, List.length_append, List.length_singleton, List.count_append, List.count_eq_zero.2 hafter] at hlength
  rw [hparts, htake, List.getElem?_append_right (by omega), Nat.sub_eq_zero_of_le (by omega)] at hpart
  obtain rfl := Option.some.inj hpart
  rw [hlines, List.getElem?_append_right (by rw [List.length_map]; omega), List.length_map, Nat.sub_eq_zero_of_le (by omega)]
  split <;> rfl

/-- The number of line feeds leads to the last line, unless nothing comes after them. -/
theorem getElem?_lines_count (text : List Char) : (lines text)[text.count '\n']? =
    if text.rtakeWhile (· != '\n') = [] then none else some (text.rtakeWhile (· != '\n')) := by
  have h := @getElem?_lines_of_notMem text [] List.not_mem_nil
  rwa [List.append_nil, List.append_nil] at h

/-- A carriage return at the end of a line is not taken from a part of it that has none. -/
theorem exists_dropReturn (front : List Char) {part : List Char} (hne : part ≠ []) (hpart : '\r' ∉ part) (back : List Char) :
    ∃ rest, dropReturn (front ++ (part ++ back)) = front ++ (part ++ rest) := by
  rcases List.eq_nil_or_concat back with rfl | ⟨rest, c, rfl⟩
  · refine ⟨[], ?_⟩
    rw [List.append_nil, dropReturn, if_neg]
    intro hlast
    rw [List.getLast?_append_of_ne_nil _ hne] at hlast
    exact hpart (List.mem_of_getLast? hlast)
  · unfold dropReturn
    split
    · refine ⟨rest, ?_⟩
      rw [List.concat_eq_append, ← List.append_assoc, ← List.append_assoc, List.dropLast_concat, List.append_assoc]
    · exact ⟨_, rfl⟩

/-- The line around a part of a text without line ends shows all of what stands before the part in the line, and all of the part. -/
theorem exists_getElem?_lines (before : List Char) {part : List Char} (hne : part ≠ []) (hline : '\n' ∉ part)
    (hreturn : '\r' ∉ part) (after : List Char) : ∃ rest, (lines (before ++ (part ++ after)))[before.count '\n']? =
      some (before.rtakeWhile (· != '\n') ++ (part ++ rest)) := by
  by_cases hafter : '\n' ∈ after
  · have htake : (part ++ after).takeWhile (· != '\n') = part ++ after.takeWhile (· != '\n') :=
      List.takeWhile_append_of_pos (ne_of_notMem hline)
    obtain ⟨rest, hrest⟩ := exists_dropReturn (before.rtakeWhile (· != '\n')) hne hreturn (after.takeWhile (· != '\n'))
    exact ⟨rest, by rw [getElem?_lines_of_mem (List.mem_append_right part hafter), htake, hrest]⟩
  · have hnone : '\n' ∉ part ++ after := by simp [hline, hafter]
    exact ⟨after, by rw [getElem?_lines_of_notMem hnone, if_neg (by simp [hne])]⟩

end QuillFrontEnd.Text
