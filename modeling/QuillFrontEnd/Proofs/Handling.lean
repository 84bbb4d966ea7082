import QuillFrontEnd.Proofs.Confinement

/-!
# Reading on around damaged tokens

A reader handles the tokens in front of it if it passes exactly these, is on track again after them, and reports nothing fatal and
nothing at a token outside of a given set. Readers that take the tokens of a complete node quietly do that, and the steps of a rule
do if each of them does. A damaged part may leave some tokens over: these are junk, and the next decision drops them.
-/

namespace QuillFrontEnd

namespace Parser

variable {ν μ : Type} {s : State} {ts ts' rest : List Token} {ok : Token → Prop} {P Q : ν → Prop}

/-! ## Outcomes -/

/-- Events that report nothing fatal, and nothing at another token. -/
def Calm (ok : Token → Prop) (es : List Event) : Prop := ∀ d ∈ reports es, d.isFatal = false ∧ ∃ x, ok x ∧ d.AnchoredAt x

theorem calm_append {es fs : List Event} : Calm ok (es ++ fs) ↔ Calm ok es ∧ Calm ok fs := by
  rw [Calm, reports_append]
  exact List.forall_mem_append

theorem Calm.of_quiet {es : List Event} (h : Quiet es) : Calm ok es := by
  rw [Calm, reports_eq_nil_of_quiet h]
  simp

/-- A run that passes tokens of the set only, and comes to one of them before the end of the input, is calm. -/
theorem Run.calm {es : List Event} {t : State} (h : Run s es t) (hpasses : ∀ x ∈ passes es, ok x) (hnext : ok t.lookahead)
    (hend : t.cursor.rest ≠ []) : Calm ok es := by
  intro d hd
  obtain ⟨⟨x, hx, ha⟩, hfatal⟩ := h.reports_anchored hd
  refine ⟨by simpa using fun hf => hend (hfatal hf), x, ?_, ha⟩
  rcases List.mem_append.1 hx with hx | hx
  · exact hpasses x hx
  · rw [List.mem_singleton.1 hx]
    exact hnext

theorem lookahead_mem_of_ahead {us xs : List Token} {x : Token} (ha : s.ahead = us ++ x :: xs) : s.lookahead ∈ us ++ [x] := by
  cases us with
  | nil => simp [State.lookahead_of_ahead ha]
  | cons u us => simp [State.lookahead_of_ahead ha]

/-- A run that passes anything passes the next token. -/
theorem Run.lookahead_mem_passes {es : List Event} {t : State} (h : Run s es t) (hlt : t.remaining < s.remaining) :
    s.lookahead ∈ passes es := by
  have hahead := h.ahead
  have hlength := h.effect.remaining
  cases hes : passes es with
  | nil =>
    rw [hes, List.length_nil] at hlength
    omega
  | cons x xs =>
    rw [hes, List.cons_append] at hahead
    rw [State.lookahead_of_ahead hahead]
    exact List.mem_cons_self

/-- Where a token ahead is not the sentinel, neither is the next one. -/
theorem State.Sealed.rest_ne_nil_of_ahead {us xs : List Token} {x : Token} (hs : s.Sealed) (ha : s.ahead = us ++ x :: xs)
    (hx : x.kind ≠ .endOfInput) : s.cursor.rest ≠ [] := by
  intro hnil
  rw [State.ahead, hnil, List.nil_append] at ha
  have hmem : x ∈ [s.cursor.sentinel] := by simp [ha]
  have hend := hs.sentinel_isEnd
  rw [← List.mem_singleton.1 hmem] at hend
  exact hx (by simpa [Token.isEnd] using hend)

/-- A reader does not come to the end of the input in front of a token that is not the sentinel. -/
theorem Reaches.matched_of_ahead {es : List Event} {us xs : List Token} {x : Token} {o : Outcome ν} (hs : s.Ready)
    (h : Reaches s es o) (ha : o.state.ahead = us ++ x :: xs) (hx : x.kind ≠ .endOfInput) (hv : o.verdict ≠ .mismatched) :
    o.verdict = .matched := by
  by_contra hne
  exact (h.run.sealed hs.toSealed).rest_ne_nil_of_ahead ha hx (h.ended hne hv)

/-- An outcome with which exactly the given tokens were passed, calmly, with a node of some kind, and the parse is on track. -/
structure Passing (ok : Token → Prop) (P : ν → Prop) (s : State) (ts : List Token) (o : Outcome ν) : Prop where
  verdict : o.verdict = .matched
  node : P o.node
  ready : o.state.Ready
  run : ∃ es, Run s es o.state ∧ passes es = ts ∧ Calm ok es

namespace Passing

variable {o : Outcome ν}

/-- The tokens after those that were passed are next. -/
theorem ahead (h : Passing ok P s ts o) (ha : s.ahead = ts ++ rest) : o.state.ahead = rest := by
  obtain ⟨es, hr, rfl, -⟩ := h.run
  exact hr.ahead_of_passes ha

theorem of_takes (h : Takes s ts o) (hs : s.Ready) (hP : P o.node) : Passing ok P s ts o := by
  refine ⟨h.verdict, hP, h.ready hs, ?_⟩
  obtain ⟨es, hr, hq, rfl⟩ := h.run
  exact ⟨es, hr, passes_eq_shifts_of_quiet hq, .of_quiet hq⟩

/-- Whatever happens in front of a token that is not the sentinel is calm, if it may be reported at that token and at all tokens
before it. -/
theorem of_reaches {es : List Event} {xs : List Token} {x : Token} (hs : s.Ready) (h : Reaches s es o)
    (hv : o.verdict = .matched) (hP : P o.node) (us : List Token) (ha : s.ahead = passes es ++ (us ++ x :: xs))
    (hx : x.kind ≠ .endOfInput) (hok : ∀ t ∈ passes es ++ (us ++ [x]), ok t) : Passing ok P s (passes es) o := by
  have hready := h.ready hs hv
  have hahead := h.run.ahead_of_passes ha
  rw [List.forall_mem_append] at hok
  exact ⟨hv, hP, hready, es, h.run, rfl,
    h.run.calm hok.1 (hok.2 _ (lookahead_mem_of_ahead hahead)) (hready.rest_ne_nil_of_ahead hahead hx)⟩

theorem trans {t : State} {es : List Event} (hr : Run s es t) (hes : Calm ok es) (h : Passing ok P t ts o) :
    Passing ok P s (passes es ++ ts) o := by
  refine ⟨h.verdict, h.node, h.ready, ?_⟩
  obtain ⟨fs, hr', rfl, hfs⟩ := h.run
  exact ⟨es ++ fs, hr.trans hr', passes_append es fs, calm_append.2 ⟨hes, hfs⟩⟩

theorem of_attempt {g : Goal} (hs : s.Ready) (h : Passing ok P (s.attempt g) ts o) : Passing ok P s ts o :=
  .trans (.ofMove (.attempt g hs.normal)) (.of_quiet (by simp)) h

/-- An outcome with the same state whose node is made from that of another. -/
theorem map {o' : Outcome μ} {Q : μ → Prop} (h : Passing ok P s ts o) (hv : o'.verdict = o.verdict) (hstate : o'.state = o.state)
    (hQ : P o.node → Q o'.node) : Passing ok Q s ts o' := by
  refine ⟨by rw [hv, h.verdict], hQ h.node, by rw [hstate]; exact h.ready, ?_⟩
  rw [hstate]
  exact h.run

end Passing

/-! ## Readers and steps -/

/-- A reader that, in front of the given tokens and others after them, passes the former calmly. -/
def Handles (ok : Token → Prop) (P : ν → Prop) (ts rest : List Token) (reader : Reader ν) : Prop :=
  ∀ s : State, s.Ready → s.ahead = ts ++ rest → Passing ok P s ts (reader s)

namespace Handles

variable {n : ν}

theorem weaken {reader : Reader ν} (h : Handles ok P ts rest reader) (hQ : ∀ n, P n → Q n) : Handles ok Q ts rest reader :=
  fun s hs ha => (h s hs ha).map rfl rfl (hQ _)

/-- Steps that build a node in front of the tokens of a complete one handle these tokens. -/
theorem ofBuilds {bare : ν → ν} {after : TokenKind → Prop} {m m' : ν} {step : Step ν} (h : Builds bare after m ts m' step)
    (hn : bare n = bare m) {x : Token} {xs : List Token} (hrest : rest = x :: xs) (hx : after x.kind) :
    Handles ok (fun n' => bare n' = bare m') ts rest (step n) := by
  intro s hs ha
  obtain ⟨ht, hb⟩ := h n s x xs hn hs (by rw [ha, hrest]) hx
  exact .of_takes ht hs hb

theorem ofRebuilds {complete : ν → Prop} {leaves : ν → List Terminal} {bare : ν → ν} {after : TokenKind → Prop}
    {reader : Reader ν} (h : Rebuilds complete leaves bare after reader) (hn : complete n) {x : Token} {xs : List Token}
    (hrest : rest = x :: xs) (hx : after x.kind) :
    Handles ok (fun n' => bare n' = bare n) (takenTokens (leaves n)) rest reader := by
  intro s hs ha
  obtain ⟨ht, hb⟩ := h n s x xs hn hs (by rw [ha, hrest]) hx
  exact .of_takes ht hs hb

/-- Where any token may come next, it is enough that there is one. -/
theorem next {bare : ν → ν} {m m' : ν} {step : Step ν} (h : Builds bare Anything m ts m' step) (hn : bare n = bare m)
    (hrest : rest ≠ []) : Handles ok (fun n' => bare n' = bare m') ts rest (step n) := by
  obtain ⟨x, xs, hx⟩ := List.exists_cons_of_ne_nil hrest
  exact .ofBuilds h hn hx trivial

theorem cons {step : Step ν} {steps : List (Step ν)} {mid : ν → Prop} (h : Handles ok mid ts (ts' ++ rest) (step n))
    (h' : ∀ m, mid m → Handles ok P ts' rest (sequence steps m)) :
    Handles ok P (ts ++ ts') rest (sequence (step :: steps) n) := by
  intro s hs ha
  rw [List.append_assoc] at ha
  have hstep := h s hs ha
  have hsteps := h' _ hstep.node _ hstep.ready (hstep.ahead ha)
  rw [sequence_cons_of_matched steps hstep.verdict]
  obtain ⟨es, hr, rfl, hes⟩ := hstep.run
  exact hsteps.trans hr hes

theorem last {step : Step ν} (h : Handles ok P ts rest (step n)) : Handles ok P ts rest (sequence [step] n) := by
  rw [sequence_singleton]
  exact h

theorem terminal (rule : Rule) {kind : TokenKind} (hend : kind ≠ .endOfInput) (follow : KindSet) (put : ν → Terminal → ν)
    {t : Token} (ht : t.kind = kind) :
    Handles ok (fun n' => n' = put n (.ofToken t)) [t] rest (terminal rule kind follow put n) := by
  intro s hs ha
  have hlook : s.lookahead = t := State.lookahead_of_ahead ha
  have hnext : s.nextKind = kind := by rw [State.nextKind, hlook, ht]
  rw [terminal_of_nextKind rule follow put n hnext, hlook]
  refine .of_takes ?_ hs rfl
  rw [← hlook]
  exact .of_attempt hs (.shift (hs.attempt _) (by rw [State.nextKind_attempt, hnext]; exact hend))

theorem child {reader : Reader μ} {R : μ → Prop} (h : Handles ok R ts rest reader) {put : ν → μ → ν}
    (hput : ∀ x, R x → P (put n x)) : Handles ok P ts rest (child reader put n) :=
  fun s hs ha => (h s hs ha).map rfl rfl (hput _)

theorem phrase [Node ν] {rule : Rule} {blank : ν} {step : Step ν} (h : Handles ok P ts rest (step blank))
    (hspan : ∀ span n, P n → P (Node.withSpan span n)) : Handles ok P ts rest (phrase rule blank step) := by
  intro s hs ha
  have hstep := h _ (hs.attempt (.rule rule)) ha
  refine (Passing.of_attempt hs hstep).map ?_ ?_ fun hP => ?_
  · unfold Parser.phrase
    rw [recover_of_matched rule hstep.verdict]
  · unfold Parser.phrase
    rw [recover_of_matched rule hstep.verdict]
  · unfold Parser.phrase
    rw [recover_of_matched rule hstep.verdict]
    exact hspan _ _ hP

end Handles

/-! ## Junk -/

variable {table : Table} {d : Decision}

/-- Tokens that are refused at a decision, and may be reported. -/
def Junk (table : Table) (d : Decision) (ok : Token → Prop) (junk : List Token) : Prop :=
  ∀ t ∈ junk, table.refuses d t.kind = true ∧ ok t

/-- A decision in front of junk drops it and nothing else, and reports it at its first token. -/
theorem choose_of_junk {junk ys : List Token} {y : Token} (hs : s.Ready) (hjunk : Junk table d ok junk)
    (ha : s.ahead = junk ++ y :: ys) (hy : table.action d y.kind ≠ .reject) :
    ∃ es t, choose table d s = (some (table.action d y.kind), t) ∧ t.Ready ∧ t.ahead = y :: ys ∧ Run s es t ∧
      passes es = junk ∧ Calm ok es := by
  cases junk with
  | nil =>
    have hnext : s.nextKind = y.kind := nextKind_of_ahead ha
    refine ⟨_, _, ?_, hs.attempt (.decision d), ha, .ofMove (.attempt _ hs.normal), rfl, .of_quiet (by simp)⟩
    rw [choose_of_ne_reject hs (by rwa [hnext]), hnext]
  | cons j junk =>
    have hs' := hs.attempt (.decision d)
    have hj := hjunk j List.mem_cons_self
    have hlook : s.lookahead = j := State.lookahead_of_ahead ha
    have hend : s.lookahead.isEnd = false := by
      have hne : s.cursor.rest ≠ [] := by
        intro hnil
        rw [State.ahead, hnil] at ha
        simp at ha
      simpa using mt hs.isEnd_lookahead_iff.1 hne
    have hb : (skippedToken table d j).Blames (s.attempt (.decision d)).lookahead := by
      rw [State.lookahead_attempt, hlook]
      exact Diagnostic.blames_of_code (by decide) _ _ _ _
    have hdrop : dropRefused table d (s.attempt (.decision d)) =
        ((s.attempt (.decision d)).mismatch (skippedToken table d j)).dropWhile (table.refuses d) := by
      have hrefuse : table.refuses d s.nextKind = true := by rw [State.nextKind, hlook]; exact hj.1
      unfold dropRefused
      rw [if_pos (by simp [hrefuse, hend]), State.lookahead_attempt, hlook]
    have hahead : ((s.attempt (.decision d)).mismatch (skippedToken table d j)).ahead = j :: junk ++ y :: ys := by
      rw [← ha, State.ahead, State.cursor_mismatch]
      rfl
    obtain ⟨es, hr, hp, hreports, ht⟩ := run_dropWhile_of_ahead (table.refuses d) (State.mode_mismatch _ _) hahead
      (fun t h => (hjunk t h).1) (by simpa [Table.refuses] using hy)
    have hrun := Run.head (.attempt (.decision d) hs.normal) (.head (.mismatch _ hs'.normal hb) (hr.trans (.ofMove (.resume _))))
    refine ⟨_, _, ?_, ⟨hrun.sealed hs.toSealed, rfl⟩, ht, hrun, by simp [hp], ?_⟩
    · have hnext := nextKind_of_ahead ht
      rw [choose_eq, hdrop, hnext, if_neg hy]
    · intro r hr
      obtain rfl : r = skippedToken table d j := by simpa [hreports] using hr
      exact ⟨rfl, j, hj.2, ⟨rfl, rfl⟩⟩

/-- A reader that passes the given tokens calmly, but for some that it may leave over at the end as junk. -/
def HandlesLeaving (table : Table) (d : Decision) (ok : Token → Prop) (P : ν → Prop) (ts rest : List Token)
    (reader : Reader ν) : Prop :=
  ∀ s : State, s.Ready → s.ahead = ts ++ rest →
    ∃ us junk, ts = us ++ junk ∧ Junk table d ok junk ∧ Passing ok P s us (reader s)

/-- A reader that passes the given tokens calmly, and any junk in front of them. -/
def HandlesAfterJunk (table : Table) (d : Decision) (ok : Token → Prop) (P : ν → Prop) (ts rest : List Token)
    (reader : Reader ν) : Prop :=
  ∀ junk, Junk table d ok junk → Handles ok P (junk ++ ts) rest reader

/-- Whatever happens in front of a token that is not the sentinel leaves junk over, if all of what it leaves over is refused. -/
theorem Reaches.leaving {es : List Event} {us xs : List Token} {x : Token} {o : Outcome ν} (hs : s.Ready) (h : Reaches s es o)
    (hv : o.verdict = .matched) (hP : P o.node) (ha : s.ahead = ts ++ x :: xs) (hts : ts = passes es ++ us)
    (hx : x.kind ≠ .endOfInput) (hok : ∀ t ∈ ts ++ [x], ok t) (hrefused : ∀ t ∈ us, table.refuses d t.kind = true) :
    ∃ us junk, ts = us ++ junk ∧ Junk table d ok junk ∧ Passing ok P s us o := by
  refine ⟨passes es, us, hts, fun t ht => ⟨hrefused t ht, hok t ?_⟩, ?_⟩
  · rw [hts]
    exact List.mem_append_left _ (List.mem_append_right _ ht)
  · rw [hts, List.append_assoc] at ha hok
    exact .of_reaches hs h hv hP us ha hx hok

theorem HandlesLeaving.weaken {reader : Reader ν} (h : HandlesLeaving table d ok P ts rest reader) (hQ : ∀ n, P n → Q n) :
    HandlesLeaving table d ok Q ts rest reader := by
  intro s hs ha
  obtain ⟨us, junk, hts, hjunk, hpassing⟩ := h s hs ha
  exact ⟨us, junk, hts, hjunk, hpassing.map rfl rfl (hQ _)⟩

/-- What the first step leaves over is junk before the others. -/
theorem HandlesLeaving.cons {step : Step ν} {steps : List (Step ν)} {n : ν} {mid : ν → Prop}
    (h : HandlesLeaving table d ok mid ts (ts' ++ rest) (step n))
    (h' : ∀ m, mid m → HandlesAfterJunk table d ok P ts' rest (sequence steps m)) :
    Handles ok P (ts ++ ts') rest (sequence (step :: steps) n) := by
  intro s hs ha
  rw [List.append_assoc] at ha
  obtain ⟨us, junk, hts, hjunk, hstep⟩ := h s hs ha
  rw [hts, List.append_assoc] at ha
  have hahead : (step n s).state.ahead = junk ++ ts' ++ rest := by
    rw [List.append_assoc]
    exact hstep.ahead ha
  have hsteps := h' _ hstep.node junk hjunk _ hstep.ready hahead
  rw [sequence_cons_of_matched steps hstep.verdict, hts, List.append_assoc]
  obtain ⟨es, hr, rfl, hes⟩ := hstep.run
  exact hsteps.trans hr hes

theorem Handles.leaving {reader : Reader ν} (h : Handles ok P ts rest reader) : HandlesLeaving table d ok P ts rest reader :=
  fun s hs ha => ⟨ts, [], by simp, by simp [Junk], h s hs ha⟩

namespace HandlesAfterJunk

variable {reader : Reader ν} {kind : TokenKind} {r : Rule} {x : Token} {xs : List Token}

/-- Without junk in front of them, the tokens are handled as well. -/
theorem handles (h : HandlesAfterJunk table d ok P ts rest reader) : Handles ok P ts rest reader := h [] (by simp [Junk])

theorem weaken (h : HandlesAfterJunk table d ok P ts rest reader) (hQ : ∀ n, P n → Q n) :
    HandlesAfterJunk table d ok Q ts rest reader := fun junk hjunk => (h junk hjunk).weaken hQ

theorem cons {step : Step ν} {steps : List (Step ν)} {n : ν} {mid : ν → Prop}
    (h : HandlesAfterJunk table d ok mid ts (ts' ++ rest) (step n))
    (h' : ∀ m, mid m → Handles ok P ts' rest (sequence steps m)) :
    HandlesAfterJunk table d ok P (ts ++ ts') rest (sequence (step :: steps) n) := by
  intro junk hjunk
  rw [← List.append_assoc]
  exact .cons (h junk hjunk) h'

theorem child {reader : Reader μ} {R : μ → Prop} {n : ν} (h : HandlesAfterJunk table d ok R ts rest reader) {put : ν → μ → ν}
    (hput : ∀ x, R x → P (put n x)) : HandlesAfterJunk table d ok P ts rest (child reader put n) :=
  fun junk hjunk => (h junk hjunk).child hput

theorem phrase [Node ν] {rule : Rule} {blank : ν} {step : Step ν} (h : HandlesAfterJunk table d ok P ts rest (step blank))
    (hspan : ∀ span n, P n → P (Node.withSpan span n)) : HandlesAfterJunk table d ok P ts rest (phrase rule blank step) :=
  fun junk hjunk => (h junk hjunk).phrase hspan

theorem many_nil (hx : table.action d x.kind = .leave) :
    HandlesAfterJunk table d ok (fun ns => ns = []) [] (x :: xs) (many table d reader) := by
  intro junk hjunk s hs ha
  rw [List.append_nil] at ha ⊢
  obtain ⟨es, t, hchoose, ht, -, hr, rfl, hes⟩ := choose_of_junk hs hjunk ha (by simp [hx])
  rw [Parser.many, hchoose, hx]
  exact ⟨rfl, rfl, ht, es, hr, rfl, hes⟩

/-- What the first phrase leaves over is junk before the others. -/
theorem many_cons (hts : StartsWith kind ts) (hd : table.action d kind = .descend r) (hp : PassesAt kind reader)
    (h : HandlesLeaving table d ok P ts (ts' ++ rest) reader) {Q : List ν → Prop}
    (h' : HandlesAfterJunk table d ok Q ts' rest (many table d reader)) :
    HandlesAfterJunk table d ok (fun ns => ∃ n ns', ns = n :: ns' ∧ P n ∧ Q ns') (ts ++ ts') rest (many table d reader) := by
  intro junk hjunk s hs ha
  obtain ⟨y, ys, rfl, hy⟩ := hts
  rw [List.append_assoc, List.append_assoc, List.cons_append] at ha
  obtain ⟨es, t, hchoose, ht, hahead, hr, rfl, hes⟩ := choose_of_junk hs hjunk ha (by simp [hy, hd])
  obtain ⟨us, junk', hus, hjunk', hitem⟩ := h t ht hahead
  have hlt : (reader t).state.remaining < s.remaining :=
    Nat.lt_of_lt_of_le (hp t ht (by rw [nextKind_of_ahead hahead, hy])) hr.remaining_le
  have hleft : (reader t).state.ahead = junk' ++ ts' ++ rest := by
    refine hitem.ahead (hahead.trans ?_)
    rw [← List.cons_append, hus]
    simp
  have hothers := h' junk' hjunk' _ hitem.ready hleft
  have htokens : passes es ++ (y :: ys ++ ts') = passes es ++ (us ++ (junk' ++ ts')) := by rw [hus, List.append_assoc]
  rw [Parser.many, hchoose, hy, hd, htokens]
  dsimp only
  rw [hitem.verdict]
  dsimp only
  rw [if_pos hlt]
  obtain ⟨fs, hr', rfl, hfs⟩ := hitem.run
  have hlist : Passing ok (fun ns => ∃ n ns', ns = n :: ns' ∧ P n ∧ Q ns') (reader t).state (junk' ++ ts')
      ⟨(reader t).node :: (many table d reader (reader t).state).node, _, _⟩ :=
    hothers.map rfl rfl fun hQ => ⟨_, _, rfl, hitem.node, hQ⟩
  exact .trans hr hes (.trans hr' hfs hlist)

variable {complete : ν → Prop} {leaves : ν → List Terminal} {bare : ν → ν}

/-- Complete phrases are read up to a token at which the table says to leave. -/
theorem many_complete (h : Rebuilds complete leaves bare Anything reader)
    (hfirst : ∀ n, complete n → StartsWith kind (takenTokens (leaves n))) (hd : table.action d kind = .descend r)
    (hp : PassesAt kind reader) (hx : table.action d x.kind = .leave) {ns : List ν} (hns : ∀ n ∈ ns, complete n) :
    HandlesAfterJunk table d ok (fun ns' => ns'.map bare = ns.map bare) (takenTokens (ns.flatMap leaves)) (x :: xs)
      (many table d reader) := by
  induction ns with
  | nil => exact (many_nil hx).weaken fun ns' hns' => by rw [hns']
  | cons n ns ih =>
    rw [List.forall_mem_cons] at hns
    rw [List.flatMap_cons, takenTokens_append]
    obtain ⟨y, ys, hy, -⟩ := exists_eq_cons_firstKind (takenTokens (ns.flatMap leaves)) x xs
    have hitem : Handles ok (fun n' => bare n' = bare n) (takenTokens (leaves n)) (takenTokens (ns.flatMap leaves) ++ x :: xs)
        reader := .ofRebuilds h hns.1 hy trivial
    refine (many_cons (hfirst n hns.1) hd hp hitem.leaving (ih hns.2)).weaken fun ns' hns' => ?_
    obtain ⟨m, ms, rfl, hm, hms⟩ := hns'
    rw [List.map_cons, List.map_cons, hm, hms]

/-- One phrase among complete ones may be damaged. -/
theorem many_damaged (h : Rebuilds complete leaves bare Anything reader)
    (hfirst : ∀ n, complete n → StartsWith kind (takenTokens (leaves n))) (hd : table.action d kind = .descend r)
    (hp : PassesAt kind reader) (hx : table.action d x.kind = .leave) {before after : List ν}
    (hbefore : ∀ n ∈ before, complete n) (hafter : ∀ n ∈ after, complete n) (hts : StartsWith kind ts)
    (hdamaged : HandlesLeaving table d ok P ts (takenTokens (after.flatMap leaves) ++ x :: xs) reader) :
    HandlesAfterJunk table d ok (fun ns' => ∃ n', P n' ∧ ns'.map bare = (before ++ n' :: after).map bare)
      (takenTokens (before.flatMap leaves) ++ (ts ++ takenTokens (after.flatMap leaves))) (x :: xs) (many table d reader) := by
  induction before with
  | nil =>
    refine (many_cons hts hd hp hdamaged (many_complete h hfirst hd hp hx hafter)).weaken fun ns' hns' => ?_
    obtain ⟨m, ms, rfl, hm, hms⟩ := hns'
    exact ⟨m, hm, by simp [hms]⟩
  | cons n before ih =>
    rw [List.forall_mem_cons] at hbefore
    rw [List.flatMap_cons, takenTokens_append, List.append_assoc]
    obtain ⟨y, ys, hy, -⟩ := exists_eq_cons_firstKind
      (takenTokens (before.flatMap leaves) ++ (ts ++ takenTokens (after.flatMap leaves))) x xs
    have hitem : Handles ok (fun n' => bare n' = bare n) (takenTokens (leaves n))
        ((takenTokens (before.flatMap leaves) ++ (ts ++ takenTokens (after.flatMap leaves))) ++ x :: xs) reader :=
      .ofRebuilds h hbefore.1 hy trivial
    refine (many_cons (hfirst n hbefore.1) hd hp hitem.leaving (ih hbefore.2)).weaken fun ns' hns' => ?_
    obtain ⟨m, ms, rfl, hm, n', hn', hms⟩ := hns'
    refine ⟨n', hn', ?_⟩
    rw [List.map_cons, hm, hms]
    rfl

end HandlesAfterJunk

end Parser

end QuillFrontEnd
