import QuillFrontEnd.Proofs.PhraseSpans
import QuillFrontEnd.Proofs.TokenOrder

/-!
# How spans nest

Where the tokens lie one after the other, the span of a node holds those of the tokens taken for it and of the nodes below it,
apart from nodes whose span is a point. In a clean parse it holds all its children, which lie one after the other, and no more than
they need: it starts with the first terminal and stops with the last, and is the point in front of the next token if there is none.
-/

namespace QuillFrontEnd

/-! ## Spans around tokens in order -/

/-- Tokens that lie one after the other. -/
structure Token.InOrder (own : List Token) : Prop where
  forward : ∀ t ∈ own, t.span.start ≤ t.span.stop
  apart : own.Pairwise fun a b => a.span.stop ≤ b.span.start

theorem TokenList.Ordered.forward {ts : TokenList} (h : ts.Ordered) : ∀ t ∈ ts.toList, t.span.start ≤ t.span.stop := by
  refine List.forall_mem_append.2 ⟨fun t ht => ?_, List.forall_mem_singleton.2 ?_⟩
  · exact Nat.le_of_lt (h.start_lt_stop t ht)
  · exact Nat.le_of_eq h.sentinel

theorem TokenList.Ordered.inOrder {ts : TokenList} (h : ts.Ordered) : Token.InOrder ts.toList := ⟨h.forward, h.apart⟩

/-- The sentinel is empty, so it may be looked at again after it was taken. -/
theorem TokenList.Ordered.inOrder_concat {ts : TokenList} (h : ts.Ordered) : Token.InOrder (ts.toList ++ [ts.sentinel]) := by
  have hsentinel : ∀ a ∈ ts.toList, a.span.stop ≤ ts.sentinel.span.start := by
    refine List.forall_mem_append.2 ⟨fun a ha => ?_, List.forall_mem_singleton.2 (Nat.le_of_eq h.sentinel.symm)⟩
    exact (List.pairwise_append.1 h.apart).2.2 a ha _ (List.mem_singleton_self _)
  refine ⟨List.forall_mem_append.2 ⟨h.forward, List.forall_mem_singleton.2 (Nat.le_of_eq h.sentinel)⟩, ?_⟩
  exact List.pairwise_append.2 ⟨h.apart, List.pairwise_singleton _ _, fun a ha => List.forall_mem_singleton.2 (hsentinel a ha)⟩

theorem Span.stop_around_concat (front : List Token) (last next : Token) :
    (around (front ++ [last]) next).stop = last.span.stop := by
  simp [around]

theorem Span.covers_iff {s other : Span} : s.covers other = true ↔ s.start ≤ other.start ∧ other.stop ≤ s.stop := by
  simp [covers]

namespace Token.InOrder

variable {own part rest : List Token} {next t : Token}

theorem sublist (h : InOrder own) (hsub : part.Sublist own) : InOrder part :=
  ⟨fun t ht => h.forward t (hsub.subset ht), h.apart.sublist hsub⟩

/-- The tokens of a part, with the one after it. -/
theorem left (h : InOrder (part ++ rest ++ [next])) : InOrder (part ++ [rest.headD next]) := by
  refine h.sublist ?_
  rw [List.append_assoc]
  refine (List.Sublist.refl part).append ?_
  cases rest with
  | nil => exact .refl _
  | cons => exact List.singleton_sublist.2 List.mem_cons_self

theorem right (h : InOrder (part ++ rest ++ [next])) : InOrder (rest ++ [next]) := by
  rw [List.append_assoc] at h
  exact h.sublist (List.sublist_append_right _ _)

theorem start_le (h : InOrder own) (ht : t ∈ own) : (Span.around own next).start ≤ t.span.start := by
  cases own with
  | nil => cases ht
  | cons x xs =>
    change x.span.start ≤ t.span.start
    rcases List.mem_cons.1 ht with rfl | ht
    · exact Nat.le_refl _
    · exact Nat.le_trans (h.forward x List.mem_cons_self) (List.rel_of_pairwise_cons h.apart ht)

theorem le_stop (h : InOrder own) (ht : t ∈ own) : t.span.stop ≤ (Span.around own next).stop := by
  obtain rfl | ⟨front, last, rfl⟩ := List.eq_nil_or_concat own
  · cases ht
  rw [List.concat_eq_append] at h ht ⊢
  rw [Span.stop_around_concat]
  rcases List.mem_append.1 ht with ht | ht
  · have hbefore := (List.pairwise_append.1 h.apart).2.2 t ht last (List.mem_singleton_self _)
    exact Nat.le_trans hbefore (h.forward last (by simp))
  · rw [List.mem_singleton.1 ht]

/-- The span around tokens ends before the next token starts. -/
theorem stop_le (h : InOrder (own ++ [next])) : (Span.around own next).stop ≤ next.span.start := by
  obtain rfl | ⟨front, last, rfl⟩ := List.eq_nil_or_concat own
  · exact Nat.le_refl _
  rw [List.concat_eq_append] at h ⊢
  rw [Span.stop_around_concat]
  exact (List.pairwise_append.1 h.apart).2.2 last (by simp) next (List.mem_singleton_self _)

theorem covers (h : InOrder own) (ht : t ∈ own) : (Span.around own next).covers t.span = true :=
  Span.covers_iff.2 ⟨h.start_le ht, h.le_stop ht⟩

theorem around_forward (h : InOrder own) : (Span.around own next).start ≤ (Span.around own next).stop := by
  cases own with
  | nil => exact Nat.le_refl _
  | cons x xs => exact Nat.le_trans (h.forward x List.mem_cons_self) (h.le_stop List.mem_cons_self)

/-- Around more tokens there is a larger span. -/
theorem covers_around {after : Token} (h : InOrder own) (hsub : part.Sublist own) (hne : part ≠ []) :
    (Span.around own next).covers (Span.around part after) = true := by
  obtain ⟨x, xs, rfl⟩ := List.exists_cons_of_ne_nil hne
  refine Span.covers_iff.2 ⟨h.start_le (hsub.subset List.mem_cons_self), ?_⟩
  obtain ⟨front, last, hlast⟩ := (List.eq_nil_or_concat (x :: xs)).resolve_left hne
  rw [List.concat_eq_append] at hlast
  rw [hlast] at hsub ⊢
  rw [Span.stop_around_concat]
  exact h.le_stop (hsub.subset (by simp))

end Token.InOrder

namespace Element

open Token

/-! ## Nodes and what is below them -/

/-- A node whose span holds what was taken for it and the spans of the nodes in it, unless they are points. -/
structure Encloses (e : Element) : Prop where
  forward : e.span.start ≤ e.span.stop
  terminals : ∀ t ∈ e.terminals, e.span.covers t.span = true
  nodes : ∀ d ∈ e.nodes, d.span.isEmpty = false → e.span.covers d.span = true

theorem Within.of_mem_preorder {own : List Token} {d e : Element} (h : e.Within own) (hd : d ∈ e.preorder) : d.Within own := by
  induction h with
  | leaf taken =>
    obtain rfl := List.mem_singleton.1 hd
    exact .leaf taken
  | node next sublist inner ih =>
    rw [preorder, preorderOfAll_eq_flatMap] at hd
    rcases List.mem_cons.1 hd with rfl | hd
    · exact .node next sublist inner
    · obtain ⟨c, hc, hd⟩ := List.mem_flatMap.1 hd
      exact (ih c hc hd).mono sublist

theorem Within.mem_of_taken {own : List Token} {e : Element} {t : Terminal} (h : e.Within own) (ht : t ∈ e.leaves)
    (hm : t.missing = false) : t.toToken ∈ own := by
  induction h with
  | leaf taken =>
    obtain rfl := List.mem_singleton.1 ht
    exact taken hm
  | node next sublist inner ih =>
    rw [leaves_node] at ht
    obtain ⟨c, hc, ht⟩ := List.mem_flatMap.1 ht
    exact sublist.subset (ih c hc ht)

/-- A node that keeps to its tokens encloses what is below it. -/
theorem Within.encloses {own : List Token} {e : Element} (h : e.Within own) (hown : InOrder own) (he : e.rule?.isSome = true) :
    e.Encloses := by
  cases h with
  | leaf => cases he
  | @node _ part rule children next sublist inner =>
    have hpart := hown.sublist sublist
    -- The node keeps to its own tokens too, so all that is below it does.
    have hself : (Element.node rule (.around part next) children).Within part := .node next (.refl part) inner
    refine ⟨hpart.around_forward, fun t ht => ?_, fun d hd hne => ?_⟩
    · obtain ⟨ht, hm⟩ := List.mem_filter.1 ht
      exact hpart.covers (hself.mem_of_taken ht (by simpa using hm))
    · obtain ⟨hd, hrule⟩ := List.mem_filter.1 hd
      cases hself.of_mem_preorder hd with
      | leaf => cases hrule
      | @node _ below _ _ after sublist _ =>
        refine hpart.covers_around sublist fun hnil => ?_
        subst hnil
        simp [span, Span.point, Span.isEmpty] at hne

/-! ## Nodes of a clean parse -/

/-- A node whose children lie one after the other in its span, which reaches from its first terminal to its last. -/
structure Fits (e : Element) : Prop where
  children : ∀ c ∈ e.children, e.span.covers c.span = true
  apart : e.children.Pairwise fun a b => a.span.stop ≤ b.span.start
  tight : ∀ first ∈ e.terminals.head?, ∀ last ∈ e.terminals.getLast?, e.span = ⟨first.span.start, last.span.stop⟩

mutual

/-- The nodes of an element, each with the first token after it that was taken. After all of them comes `next`. -/
def nodesWithNext (next : Token) : Element → List (Element × Token)
  | leaf _ => []
  | node rule span children => (node rule span children, next) :: nodesWithNextOfAll next children

/-- The nodes of several elements, each with the first token after it that was taken. -/
def nodesWithNextOfAll (next : Token) : List Element → List (Element × Token)
  | [] => []
  | e :: es => e.nodesWithNext ((takenTokens (leavesOfAll es)).headD next) ++ nodesWithNextOfAll next es

end

mutual

theorem map_fst_nodesWithNext (next : Token) (e : Element) : (e.nodesWithNext next).map Prod.fst = e.nodes := by
  cases e with
  | leaf t => rfl
  | node rule span children =>
    rw [nodesWithNext, List.map_cons, map_fst_nodesWithNextOfAll next children]
    rfl

theorem map_fst_nodesWithNextOfAll (next : Token) (es : List Element) :
    (nodesWithNextOfAll next es).map Prod.fst = (preorderOfAll es).filter fun e => e.rule?.isSome := by
  cases es with
  | nil => rfl
  | cons e es =>
    rw [nodesWithNextOfAll, List.map_append, map_fst_nodesWithNext _ e, map_fst_nodesWithNextOfAll next es, preorderOfAll,
      List.filter_append]
    rfl

end

variable {es : List Element} {own : List Token} {next : Token}

/-- Elements that share out tokens have these as their terminals. -/
theorem Laid.leaves_eq (h : Laid es own next) : es.flatMap leaves = own.map .ofToken := by
  induction h with
  | nil => rfl
  | @leaf t es own next taken _ ih =>
    have ht : t = .ofToken t.toToken := by
      cases t
      simp_all [Terminal.ofToken]
    rw [List.flatMap_cons, ih, List.map_cons, ← ht]
    rfl
  | node last _ _ ihinner ihrest => rw [List.flatMap_cons, leaves_node, ihinner, ihrest, List.map_append]

theorem Laid.takenTokens_eq (h : Laid es own next) : takenTokens (leavesOfAll es) = own := by
  rw [leavesOfAll_eq_flatMap, h.leaves_eq, takenTokens, List.filterMap_map]
  exact List.filterMap_some

/-- The first of several elements has the tokens before those of the others, and the span around them. -/
theorem Laid.exists_part {e : Element} (h : Laid (e :: es) own next) :
    ∃ part rest, own = part ++ rest ∧ e.span = .around part (rest.headD next) ∧ Laid es rest next := by
  cases h with
  | @leaf t es rest _ taken h => exact ⟨[t.toToken], rest, rfl, rfl, h⟩
  | @node rule children es part rest next last inner h => exact ⟨part, rest, rfl, rfl, h⟩

/-- Elements that share out tokens lie one after the other, and none starts before the first token. -/
theorem Laid.ordered (h : Laid es own next) (hown : InOrder (own ++ [next])) :
    (es.Pairwise fun a b => a.span.stop ≤ b.span.start) ∧ ∀ e ∈ es, (own.headD next).span.start ≤ e.span.start := by
  induction es generalizing own with
  | nil => exact ⟨.nil, List.forall_mem_nil _⟩
  | cons e es ih =>
    obtain ⟨part, rest, rfl, hspan, hrest⟩ := h.exists_part
    obtain ⟨hpairs, hstart⟩ := ih hrest hown.right
    have hstop : e.span.stop ≤ (rest.headD next).span.start := by
      rw [hspan]
      exact hown.left.stop_le
    have hfirst : e.span.start = ((part ++ rest).headD next).span.start := by rw [hspan, headD_append, Span.around]
    have hforward : e.span.start ≤ e.span.stop := by
      rw [hspan]
      exact (hown.left.sublist (List.sublist_append_left _ _)).around_forward
    refine ⟨.cons (fun c hc => Nat.le_trans hstop (hstart c hc)) hpairs, List.forall_mem_cons.2 ⟨Nat.le_of_eq hfirst.symm, ?_⟩⟩
    intro c hc
    have hc := hstart c hc
    omega

/-- If there is a terminal in the last of several elements, no element ends after the last token. -/
theorem Laid.stop_le (h : Laid es own next) (hown : InOrder (own ++ [next])) (hlast : ∀ c ∈ es.getLast?, c.leaves ≠ []) :
    ∀ e ∈ es, e.span.stop ≤ (Span.around own next).stop := by
  induction es generalizing own with
  | nil => exact List.forall_mem_nil _
  | cons e es ih =>
    obtain ⟨part, rest, rfl, hspan, hrest⟩ := h.exists_part
    cases es with
    | nil =>
      cases hrest
      refine List.forall_mem_singleton.2 (Nat.le_of_eq ?_)
      rw [hspan, List.append_nil]
      rfl
    | cons e' es =>
      rw [List.getLast?_cons_cons] at hlast
      -- The last element has a terminal, so some token is left for those after the first.
      have hne : rest ≠ [] := by
        rintro rfl
        have hnil := List.flatMap_eq_nil_iff.1 hrest.leaves_eq
        exact hlast _ (List.getLast?_eq_some_getLast (List.cons_ne_nil e' es)) (hnil _ (List.getLast_mem _))
      obtain ⟨x, xs, rfl⟩ := List.exists_cons_of_ne_nil hne
      have hsame : (Span.around (part ++ x :: xs) next).stop = (Span.around (x :: xs) next).stop := by
        simp [Span.around, List.getLast?_cons]
      rw [hsame]
      refine List.forall_mem_cons.2 ⟨?_, ih hrest hown.right hlast⟩
      have hstop : e.span.stop ≤ x.span.start := by
        rw [hspan]
        exact hown.left.stop_le
      exact Nat.le_trans hstop (hown.right.sublist (List.sublist_append_left _ _)).around_forward

/-- The span around the tokens of an element, in terms of its terminals. -/
theorem around_takenTokens {e : Element} (h : e.span = .around (takenTokens e.leaves) next) :
    (∀ first ∈ e.terminals.head?, ∀ last ∈ e.terminals.getLast?, e.span = ⟨first.span.start, last.span.stop⟩) ∧
      (e.terminals = [] → e.span = .point next.span.start) := by
  rw [← map_toToken_terminals] at h
  refine ⟨fun first hfirst last hlast => ?_, fun hnil => ?_⟩
  · rw [h, Span.around, List.headD_eq_head?_getD, List.head?_map, List.getLast?_map, hfirst, hlast]
    rfl
  · rw [h, hnil]
    rfl

/-- Every node of elements that share out tokens fits, and without terminals it stands in front of the token after it. -/
theorem Laid.fits (h : Laid es own next) (hown : InOrder (own ++ [next])) :
    ∀ p ∈ nodesWithNextOfAll next es, p.1.Fits ∧ (p.1.terminals = [] → p.1.span = .point p.2.span.start) := by
  induction h with
  | nil => exact List.forall_mem_nil _
  | leaf _ _ ih => exact ih (hown.sublist (List.sublist_cons_self _ _))
  | @node rule children es part own next last inner rest ihinner ihrest =>
    rw [nodesWithNextOfAll, nodesWithNext, rest.takenTokens_eq]
    refine List.forall_mem_append.2 ⟨List.forall_mem_cons.2 ⟨?_, ihinner hown.left⟩, ihrest hown.right⟩
    obtain ⟨hpairs, hstart⟩ := inner.ordered hown.left
    obtain ⟨htight, hpoint⟩ := around_takenTokens (e := .node rule (.around part (own.headD next)) children)
      (by rw [leaves, inner.takenTokens_eq]; rfl)
    exact ⟨⟨fun c hc => Span.covers_iff.2 ⟨hstart c hc, inner.stop_le hown.left last c hc⟩, hpairs, htight⟩, hpoint⟩

end Element

open QuillFrontEnd.Element QuillFrontEnd.Parser

/-- Where the tokens lie one after the other, every node of the tree has a span that does not stop before it starts, and that
holds the terminals that were taken below it and the nodes below it whose span is not a point. In a clean parse the span of a node
holds all its children, which lie one after the other, and it reaches exactly from its first terminal to its last; without
terminals it is the point where the next token starts. -/
theorem spans_nest (ts : TokenList) (h : ts.Ordered) :
    (∀ e ∈ (parse ts).tree.element.nodes, e.Encloses) ∧
      ((parse ts).isClean = true →
        (∀ e ∈ (parse ts).tree.element.nodes, e.Fits) ∧
          ∀ p ∈ (parse ts).tree.element.nodesWithNext ts.sentinel, p.1.terminals = [] → p.1.span = .point p.2.span.start) := by
  obtain ⟨hwithin, hlaid⟩ := within_parse ts
  refine ⟨fun e he => ?_, fun hclean => ?_⟩
  · obtain ⟨he, hrule⟩ := List.mem_filter.1 he
    exact (hwithin.of_mem_preorder he).encloses h.inOrder hrule
  · have hfits := (hlaid ((isClean_iff_quiet ts).1 hclean)).fits h.inOrder_concat
    have hnodes : nodesWithNextOfAll ts.sentinel [(parse ts).tree.element] =
        (parse ts).tree.element.nodesWithNext ts.sentinel := List.append_nil _
    rw [hnodes] at hfits
    refine ⟨fun e he => ?_, fun p hp => (hfits p hp).2⟩
    rw [← map_fst_nodesWithNext ts.sentinel] at he
    obtain ⟨p, hp, rfl⟩ := List.mem_map.1 he
    exact (hfits p hp).1

/-- The program `program x : function x ( ) { ; } main { }`, in which declarations, parameters and an expression are empty. -/
theorem spans_nest_function :
    let ts := TokenList.ofKinds [.program, .identifier, .colon, .function, .identifier, .leftParen, .rightParen, .leftBrace,
      .semicolon, .rightBrace, .main, .leftBrace, .rightBrace]
    ts.Ordered ∧ (parse ts).isClean = true ∧ (∀ e ∈ (parse ts).tree.element.nodes, e.Encloses ∧ e.Fits) ∧
      ∀ p ∈ (parse ts).tree.element.nodesWithNext ts.sentinel, p.1.terminals = [] → p.1.span = .point p.2.span.start := by
  intro ts
  have hts : ts.Ordered := TokenList.ordered_ofKinds (by decide)
  have hclean : (parse ts).isClean = true := by decide +kernel
  obtain ⟨hencloses, hfits⟩ := spans_nest ts hts
  exact ⟨hts, hclean, fun e he => ⟨hencloses e he, (hfits hclean).1 e he⟩, (hfits hclean).2⟩

end QuillFrontEnd
