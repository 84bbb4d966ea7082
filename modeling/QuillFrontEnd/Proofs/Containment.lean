import QuillFrontEnd.Proofs.DamagedPhrases
import QuillFrontEnd.Proofs.Language
import QuillFrontEnd.Proofs.Region

/-!
# Damage stays where it is

If other tokens stand in place of one region of a program, the parse reports nothing but at the region and at the first token after
it, does not give up, and gives a tree that is that of the program outside of the region.
-/

namespace QuillFrontEnd

/-! ## Damaged excerpts -/

namespace Excerpt

/-- The tokens of an excerpt with others in place of those inside. -/
def replace (e : Excerpt) (ts : List Token) : List Token :=
  takenTokens e.before ++ (takenTokens e.opening ++ (ts ++ (takenTokens e.closing ++ takenTokens e.after)))

/-- The tokens in place of those inside, the marks around them, and the first token that comes after. -/
def touched (e : Excerpt) (ts rest : List Token) : List Token :=
  takenTokens e.opening ++ (ts ++ (takenTokens e.closing ++ (takenTokens e.after ++ rest).take 1))

variable (e : Excerpt) (left right : List Terminal) (ts rest : List Token)

theorem replace_within : (e.within left right).replace ts = takenTokens left ++ (e.replace ts ++ takenTokens right) := by
  simp [replace, within]

theorem touched_within : (e.within left right).touched ts rest = e.touched ts (takenTokens right ++ rest) := by
  simp [touched, within]

end Excerpt

theorem VarDecl.Complete.replace_excerpt {n : VarDecl} (hn : n.Complete) (ts : List Token) :
    n.excerpt.replace ts = n.keyword.toToken :: (ts ++ [n.semicolon.toToken]) := by
  simp [VarDecl.excerpt, Excerpt.replace, hn.keyword.token?, hn.semicolon.token?]

theorem VarDecl.Complete.touched_excerpt {n : VarDecl} (hn : n.Complete) (ts rest : List Token) :
    n.excerpt.touched ts rest = n.keyword.toToken :: (ts ++ n.semicolon.toToken :: rest.take 1) := by
  simp [VarDecl.excerpt, Excerpt.touched, hn.keyword.token?, hn.semicolon.token?]

theorem Block.Complete.replace_excerpt {n : Block} (hn : n.Complete) (ts : List Token) :
    n.excerpt.replace ts = n.left.toToken :: (ts ++ [n.right.toToken]) := by
  simp [Block.excerpt, Excerpt.replace, hn.left.token?, hn.right.token?]

theorem Block.Complete.touched_excerpt {n : Block} (hn : n.Complete) (ts rest : List Token) :
    n.excerpt.touched ts rest = n.left.toToken :: (ts ++ n.right.toToken :: rest.take 1) := by
  simp [Block.excerpt, Excerpt.touched, hn.left.token?, hn.right.token?]

namespace Parser

variable {ν : Type} {ok : Token → Prop} {damage xs : List Token} {x : Token} {table : Table} {d : Decision} {e : Excerpt}

/-! ## Lists -/

/-- The item at a place may be damaged; what the list would be without it is not. -/
theorem HandlesAfterJunk.many_modified {complete : ν → Prop} {leaves : ν → List Terminal} {bare : ν → ν} {reader : Reader ν}
    {kind : TokenKind} {r : Rule} {ts : List Token} (g : ν → ν) (h : Rebuilds complete leaves bare Anything reader)
    (hfirst : ∀ n, complete n → StartsWith kind (takenTokens (leaves n))) (hd : table.action d kind = .descend r)
    (hp : PassesAt kind reader) (hx : table.action d x.kind = .leave) {as : List ν} {a : ν} {i : Nat} (ha : as[i]? = some a)
    (has : ∀ n ∈ as, complete n) (hts : StartsWith kind ts)
    (hdamaged : HandlesLeaving table d ok (fun n => g (bare n) = g (bare a)) ts
      (takenTokens ((as.drop (i + 1)).flatMap leaves) ++ x :: xs) reader) :
    HandlesAfterJunk table d ok (fun ns => (ns.map bare).modify i g = (as.map bare).modify i g)
      (takenTokens ((as.take i).flatMap leaves) ++ (ts ++ takenTokens ((as.drop (i + 1)).flatMap leaves))) (x :: xs)
      (many table d reader) := by
  have hbefore : ∀ n ∈ as.take i, complete n := fun n hn => has n (List.mem_of_mem_take hn)
  have hafter : ∀ n ∈ as.drop (i + 1), complete n := fun n hn => has n (List.mem_of_mem_drop hn)
  refine (many_damaged h hfirst hd hp hx hbefore hafter hts hdamaged).weaken fun ns hns => ?_
  obtain ⟨n, hn, hns⟩ := hns
  rw [hns, List.map_append, List.map_cons, List.map_take, List.map_drop]
  exact modify_of_replaced (by rw [List.getElem?_map, ha]; rfl) hn

/-- The first token of a list of phrases and what comes after it. -/
theorem exists_first_of_many {complete : ν → Prop} {leaves : ν → List Terminal} {kind : TokenKind}
    (hfirst : ∀ n, complete n → StartsWith kind (takenTokens (leaves n))) {ns : List ν} (hns : ∀ n ∈ ns, complete n)
    (x : Token) (xs : List Token) :
    ∃ y ys, takenTokens (ns.flatMap leaves) ++ x :: xs = y :: ys ∧ (y.kind = kind ∨ y.kind = x.kind) := by
  cases ns with
  | nil => exact ⟨x, xs, rfl, .inr rfl⟩
  | cons n ns =>
    obtain ⟨t, us, ht, hk⟩ := hfirst n (hns n List.mem_cons_self)
    rw [List.flatMap_cons, takenTokens_append, ht]
    exact ⟨t, _, rfl, .inl hk⟩

/-! ## Declarations -/

/-- Declarations of which none is damaged. -/
theorem handles_decls {n : VarDecls} {rule r : Rule} (hn : n.Complete) (hd : Table.standard.action d .var = .descend r)
    (hx : Table.standard.action d x.kind = .leave) :
    HandlesAfterJunk .standard d ok (fun m => m.bare = n.bare) (takenTokens (n.element rule).leaves) (x :: xs)
      (phrase rule {} (child (many .standard d (varDecl .standard)) fun (n : VarDecls) decls => { n with decls })) := by
  rw [VarDecls.leaves_element]
  refine .phrase (.child (.many_complete rebuilds_varDecl (fun _ => startsWith_var) hd
    (accounts_varDecl Table.standard_orderly).2 hx hn) fun decls hdecls => ?_) fun _ _ h => h
  simp [VarDecls.bare, hdecls]

/-- Declarations of which one is damaged. -/
theorem handles_damaged_decls {n : VarDecls} {i : Nat} {rule r : Rule} (hn : n.Complete) (he : n.excerpt? i = some e)
    (hd : Table.standard.action d .var = .descend r) (hdamage : ∀ t ∈ damage, t.kind ∉ declLimits)
    (hx : Table.standard.action d x.kind = .leave) (hend : x.kind ≠ .endOfInput)
    (hok : ∀ t ∈ e.touched damage (x :: xs), ok t) :
    HandlesAfterJunk .standard d ok (fun m => m.bare.outside i = n.bare.outside i) (e.replace damage) (x :: xs)
      (phrase rule {} (child (many .standard d (varDecl .standard)) fun (n : VarDecls) decls => { n with decls })) := by
  obtain ⟨a, e', ha, he', rfl⟩ := Excerpt.inList_eq_some_iff.1 he
  obtain rfl := Option.some.inj he'
  have hcomplete : a.Complete := hn a (List.mem_of_getElem? ha)
  have hafter : ∀ m ∈ n.decls.drop (i + 1), m.Complete := fun m hm => hn m (List.mem_of_mem_drop hm)
  obtain ⟨y, ys, hy, hkind⟩ := exists_first_of_many (fun _ => startsWith_var) hafter x xs
  have hlast : y.kind ≠ .endOfInput := by
    rcases hkind with h | h
    · simp [h]
    · rwa [h]
  rw [Excerpt.touched_within, hy, hcomplete.touched_excerpt, List.forall_mem_cons] at hok
  have hlimits : ∀ t ∈ damage, t.kind ∉ declarationStarts.insert .semicolon := by
    intro t ht
    have h := hdamage t ht
    revert h
    cases t.kind <;> decide
  have hdamaged : Handles ok (fun _ => True) (a.keyword.toToken :: (damage ++ [a.semicolon.toToken])) (y :: ys)
      (varDecl .standard) := handles_damaged_varDecl hcomplete.keyword.2 hcomplete.semicolon.2 hlast hlimits hok.2
  rw [← hcomplete.replace_excerpt, ← hy] at hdamaged
  have hstart : StartsWith .var (a.excerpt.replace damage) := by
    rw [hcomplete.replace_excerpt]
    exact ⟨_, _, rfl, hcomplete.keyword.2⟩
  have hmany := HandlesAfterJunk.many_modified (fun _ => {}) rebuilds_varDecl (fun _ => startsWith_var) hd
    (accounts_varDecl Table.standard_orderly).2 hx ha hn hstart (hdamaged.leaving.weaken fun _ _ => rfl)
  rw [Excerpt.replace_within]
  refine .phrase (.child hmany fun decls hdecls => ?_) fun _ _ h => h
  simp [VarDecls.bare, VarDecls.outside, hdecls]

/-! ## Blocks -/

theorem handles_damaged_excerpt_block {n : Block} {rest : List Token} (hn : n.Complete)
    (hdamage : ∀ t ∈ damage, t.kind ∉ blockLimits) (hok : ∀ t ∈ n.excerpt.touched damage rest, ok t) :
    Handles ok (fun _ => True) (n.excerpt.replace damage) rest (block .standard) := by
  rw [hn.touched_excerpt, List.forall_mem_cons] at hok
  rw [hn.replace_excerpt]
  refine handles_damaged_block hn.left.2 hn.right.2 (fun t ht h => hdamage t ht ?_) fun t ht => hok.2 t ?_
  · exact List.mem_append_left [.endOfInput] h
  · rw [List.append_cons]
    exact List.mem_append_left _ ht

/-! ## Functions -/

/-- The parts of a function after its parameters are handled if its declarations and its block are. -/
theorem handles_afterParams {n : FunctionDecl} {right : Terminal} {ts us rest : List Token} {R : VarDecls → Prop}
    {S : Block → Prop} (hright : right.Holds .rightParen) (hlocals : Handles ok R ts (us ++ rest) (localVars .standard))
    (hblock : Handles ok S us rest (block .standard)) :
    Handles ok (fun m => ∃ vs b, R vs ∧ S b ∧ m.bare = ({ n with right := right, locals := vs, body := b } : FunctionDecl).bare)
      (right.toToken :: (ts ++ us)) rest (sequence [
        terminal .functionDecls .rightParen (.ofList [.var, .leftBrace]) fun n t => { n with right := t },
        child (localVars .standard) fun n vs => { n with locals := vs },
        child (block .standard) fun n b => { n with body := b }] n) := by
  change Handles ok _ ([right.toToken] ++ (ts ++ us)) rest _
  refine .cons (.terminal _ (by decide) _ _ hright.2) fun q hq =>
    .cons (.child (P := fun m => ∃ vs, R vs ∧ m = { q with locals := vs }) hlocals fun vs hvs => ⟨vs, hvs, rfl⟩)
      fun m hm => .last (.child hblock fun b hb => ?_)
  obtain ⟨vs, hvs, rfl⟩ := hm
  rw [hq, hright.ofToken_toToken]
  exact ⟨vs, b, hvs, hb, rfl⟩

/-- A function is handled if its declarations and its block are. -/
theorem handles_functionDecl {n : FunctionDecl} {ts us rest : List Token} {R : VarDecls → Prop} {S : Block → Prop}
    (hn : n.Complete) (hlocals : Handles ok R ts (us ++ rest) (localVars .standard))
    (hblock : Handles ok S us rest (block .standard)) :
    Handles ok (fun m => ∃ vs b, R vs ∧ S b ∧ m.bare = ({ n with locals := vs, body := b } : FunctionDecl).bare)
      (n.keyword.toToken :: (takenTokens n.nameAndParams ++ (ts ++ us))) rest (functionDecl .standard) := by
  have htokens : n.keyword.toToken :: (takenTokens n.nameAndParams ++ (ts ++ us)) =
      [n.keyword.toToken] ++ ([n.name.toToken] ++ ([n.left.toToken] ++ (takenTokens (ParamList.leaves? n.params) ++
        ([n.right.toToken] ++ (ts ++ us))))) := by
    simp [FunctionDecl.nameAndParams, hn.name.token?, hn.left.token?, hn.right.token?]
  rw [htokens]
  refine .phrase (.cons (.terminal _ (by decide) _ _ hn.keyword.2) fun k hk =>
    .cons (.terminal _ (by decide) _ _ hn.name.2) fun i hi => .cons (.terminal _ (by decide) _ _ hn.left.2) fun l hl =>
    .cons (.ofBuilds (builds_params { keyword := n.keyword, name := n.name, left := n.left } rfl hn.params) ?_ rfl hn.right.2)
      fun p hp => (handles_afterParams (n := p) hn.right hlocals hblock).weaken ?_) fun _ _ h => h
  · rw [hl, hi, hk, hn.keyword.ofToken_toToken, hn.name.ofToken_toToken, hn.left.ofToken_toToken]
  · rintro m ⟨vs, b, hvs, hb, hm⟩
    refine ⟨vs, b, hvs, hb, ?_⟩
    have hbare : FunctionDecl.bare { p with right := n.right, locals := vs, body := b } =
        { p.bare with right := n.right, locals := vs.bare, body := b.bare } := rfl
    rw [hm, hbare, hp]
    rfl

/-- The excerpt around a part of a function starts with its keyword. -/
theorem startsWith_function_of_excerpt? {n : FunctionDecl} {part : FunctionPart} (hn : n.Complete)
    (he : n.excerpt? part = some e) : StartsWith .function (e.replace damage) := by
  obtain ⟨ts, hts⟩ : ∃ ts, e.before = n.keyword :: ts := by
    cases part with
    | localDecl i =>
      obtain ⟨e', -, rfl⟩ := Option.map_eq_some_iff.1 he
      exact ⟨_, rfl⟩
    | block | whole =>
      rw [← Option.some.inj he]
      exact ⟨_, rfl⟩
  rw [Excerpt.replace, hts]
  exact (StartsWith.of_holds hn.keyword ts).append _

/-- The tokens of a function with other ones in place of those in a part. -/
theorem replace_within_function {n : FunctionDecl} (hn : n.Complete) (e : Excerpt) (left right : List Terminal) :
    (e.within (n.keyword :: left) right).replace damage =
      n.keyword.toToken :: (takenTokens left ++ (e.replace damage ++ takenTokens right)) := by
  simp [Excerpt.replace_within, hn.keyword.token?]

/-- A function with a damaged local declaration. -/
theorem handles_damaged_local {n : FunctionDecl} {i : Nat} (hn : n.Complete) (he : n.excerpt? (.localDecl i) = some e)
    (hdamage : ∀ t ∈ damage, t.kind ∉ declLimits) (hok : ∀ t ∈ e.touched damage (x :: xs), ok t) :
    Handles ok (fun m => m.bare.outside (.localDecl i) = n.bare.outside (.localDecl i)) (e.replace damage) (x :: xs)
      (functionDecl .standard) := by
  obtain ⟨e', he', rfl⟩ := Option.map_eq_some_iff.1 he
  obtain ⟨y, ys, hbody, hy⟩ := startsWith_brace hn.body
  have hbrace : Table.standard.action .moreLocals y.kind = .leave := by
    rw [hy]
    rfl
  rw [Excerpt.touched_within, hbody] at hok
  have hlocals : Handles ok (fun m => m.bare.outside i = n.locals.bare.outside i) (e'.replace damage)
      (takenTokens n.body.element.leaves ++ x :: xs) (localVars .standard) := by
    rw [hbody]
    exact (handles_damaged_decls hn.locals he' rfl hdamage hbrace (by simp [hy]) hok).handles
  have hblock : Handles ok (fun m => m.bare = n.body.bare) (takenTokens n.body.element.leaves) (x :: xs) (block .standard) :=
    .ofRebuilds rebuilds_block hn.body rfl trivial
  rw [replace_within_function hn]
  refine (handles_functionDecl hn hlocals hblock).weaken fun m hm => ?_
  obtain ⟨vs, b, hvs, hb, hm⟩ := hm
  rw [hm]
  simp [FunctionDecl.outside, FunctionDecl.bare, hvs, hb]

/-- A function with a damaged block. -/
theorem handles_damaged_body {n : FunctionDecl} {rest : List Token} (hn : n.Complete) (he : n.excerpt? .block = some e)
    (hdamage : ∀ t ∈ damage, t.kind ∉ blockLimits) (hok : ∀ t ∈ e.touched damage rest, ok t) :
    Handles ok (fun m => m.bare.outside .block = n.bare.outside .block) (e.replace damage) rest (functionDecl .standard) := by
  obtain rfl := Option.some.inj he
  rw [Excerpt.touched_within, takenTokens_nil, List.nil_append] at hok
  have hblock := handles_damaged_excerpt_block hn.body hdamage hok
  have hlocals : Handles ok (fun m => m.bare = n.locals.bare) (takenTokens (n.locals.element .localVars).leaves)
      (n.body.excerpt.replace damage ++ rest) (localVars .standard) := by
    rw [hn.body.replace_excerpt]
    refine (handles_decls hn.locals rfl ?_).handles
    have hleft : n.body.left.toToken.kind = .leftBrace := hn.body.left.2
    rw [hleft]
    rfl
  rw [replace_within_function hn, takenTokens_append, takenTokens_nil, List.append_nil, List.append_assoc]
  refine (handles_functionDecl hn hlocals hblock).weaken fun m hm => ?_
  obtain ⟨vs, b, hvs, -, hm⟩ := hm
  rw [hm]
  simp [FunctionDecl.outside, FunctionDecl.bare, hvs]

/-- A function that is damaged after its keyword. -/
theorem handlesLeaving_damaged_whole {n : FunctionDecl} (hn : n.Complete) (he : n.excerpt? .whole = some e)
    (hallows : FunctionPart.Allows .whole (damage.map Token.kind)) (hx : x.kind ∈ [TokenKind.function, .main])
    (hok : ∀ t ∈ e.touched damage (x :: xs), ok t) :
    HandlesLeaving .standard .moreFunctions ok (fun _ => True) (e.replace damage) (x :: xs) (functionDecl .standard) := by
  obtain rfl := Option.some.inj he
  have hdamage : ∀ t ∈ damage, Inner t.kind ∧ t.kind ≠ .endOfInput := by
    intro t ht
    have h := hallows.1 t.kind (List.mem_map_of_mem ht)
    revert h
    cases t.kind <;> decide
  simp only [Excerpt.replace, takenTokens_cons, hn.keyword.token?, Option.toList_some, takenTokens_nil, List.nil_append,
    List.append_nil, List.cons_append]
  refine handlesLeaving_damaged_function hn.keyword.2 hx hdamage hallows.2 ?_
  simpa [Excerpt.touched] using hok

/-- A function with a damaged part. -/
theorem handlesLeaving_damaged_part {n : FunctionDecl} {part : FunctionPart} (hn : n.Complete) (he : n.excerpt? part = some e)
    (hallows : part.Allows (damage.map Token.kind)) (hx : x.kind ∈ [TokenKind.function, .main])
    (hok : ∀ t ∈ e.touched damage (x :: xs), ok t) :
    HandlesLeaving .standard .moreFunctions ok (fun m => m.bare.outside part = n.bare.outside part) (e.replace damage) (x :: xs)
      (functionDecl .standard) := by
  cases part with
  | localDecl i => exact (handles_damaged_local hn he (fun t ht => hallows t.kind (List.mem_map_of_mem ht)) hok).leaving
  | block => exact (handles_damaged_body hn he (fun t ht => hallows t.kind (List.mem_map_of_mem ht)) hok).leaving
  | whole => exact (handlesLeaving_damaged_whole hn he hallows hx hok).weaken fun _ _ => rfl

/-- Functions of which one is damaged start with a keyword of a function, if the damaged one does. -/
theorem startsWith_function_of_inList {fs : List FunctionDecl} {i : Nat} {part : FunctionDecl → Option Excerpt}
    (hfs : ∀ f ∈ fs, f.Complete)
    (hpart : ∀ (f : FunctionDecl) (e : Excerpt), f.Complete → part f = some e → StartsWith .function (e.replace damage))
    (he : Excerpt.inList (fun f => f.element.leaves) part fs i = some e) : StartsWith .function (e.replace damage) := by
  obtain ⟨a, e', ha, he', rfl⟩ := Excerpt.inList_eq_some_iff.1 he
  have hbefore : ∀ f ∈ fs.take i, f.Complete := fun f hf => hfs f (List.mem_of_mem_take hf)
  obtain ⟨y, ys, hy, hkind⟩ := hpart a e' (hfs a (List.mem_of_getElem? ha)) he'
  obtain ⟨x, xs, hx, hkind'⟩ := exists_first_of_many (fun _ => startsWith_function) hbefore y
    (ys ++ takenTokens ((fs.drop (i + 1)).flatMap fun f => f.element.leaves))
  rw [Excerpt.replace_within, hy, List.cons_append, hx]
  exact ⟨x, xs, rfl, by simpa [hkind] using hkind'⟩

/-- Functions of which one is damaged. -/
theorem handles_damaged_functions {n : Functions} {i : Nat} {part : FunctionPart} (hn : n.Complete)
    (he : Excerpt.inList (fun f => f.element.leaves) (fun f => f.excerpt? part) n.decls i = some e)
    (hallows : part.Allows (damage.map Token.kind)) (hx : x.kind = .main) (hok : ∀ t ∈ e.touched damage (x :: xs), ok t) :
    Handles ok (fun m => m.bare.outside i part = n.bare.outside i part) (e.replace damage) (x :: xs)
      (functions .standard) := by
  obtain ⟨a, e', ha, he', rfl⟩ := Excerpt.inList_eq_some_iff.1 he
  have hcomplete : a.Complete := hn a (List.mem_of_getElem? ha)
  have hafter : ∀ m ∈ n.decls.drop (i + 1), m.Complete := fun m hm => hn m (List.mem_of_mem_drop hm)
  obtain ⟨y, ys, hy, hkind⟩ := exists_first_of_many (fun _ => startsWith_function) hafter x xs
  have hnext : y.kind ∈ [TokenKind.function, .main] := by
    rw [hx] at hkind
    simpa using hkind
  rw [Excerpt.touched_within, hy] at hok
  have hdamaged := handlesLeaving_damaged_part hcomplete he' hallows hnext hok
  rw [← hy] at hdamaged
  rw [Excerpt.replace_within]
  refine .phrase (.child (HandlesAfterJunk.many_modified (.outside part) rebuilds_functionDecl (fun _ => startsWith_function) rfl
    (accounts_functionDecl Table.standard_orderly).2 (by rw [hx]; rfl) ha hn (startsWith_function_of_excerpt? hcomplete he')
    hdamaged).handles fun decls hdecls => ?_) fun _ _ h => h
  simp [Functions.bare, Functions.outside, hdecls]

/-! ## Programs -/

/-- The main block is handled if its block is. -/
theorem handles_mainBlock {n : MainBlock} {ts rest : List Token} {S : Block → Prop} (hn : n.Complete)
    (hblock : Handles ok S ts rest (block .standard)) :
    Handles ok (fun m => ∃ b, S b ∧ m.bare = ({ n with block := b } : MainBlock).bare) (n.keyword.toToken :: ts) rest
      (mainBlock .standard) := by
  change Handles ok _ ([n.keyword.toToken] ++ ts) rest _
  refine .phrase (.cons (.terminal _ (by decide) _ _ hn.keyword.2) fun m hm => .last (.child hblock fun b hb => ⟨b, hb, ?_⟩))
    fun _ _ h => h
  rw [hm, hn.keyword.ofToken_toToken]
  rfl

theorem handles_mainStep {ts rest : List Token} {M : MainBlock → Prop} (n : Program)
    (h : Handles ok M ts rest (mainBlock .standard)) :
    Handles ok (fun m => ∃ b, M b ∧ m = { n with main := b }) ts rest (mainStep .standard n) := by
  intro s hs ha
  have hmain := h s hs ha
  have hstep : mainStep .standard n s = child (mainBlock .standard) (fun n m => { n with main := m }) n s := by
    unfold mainStep child
    dsimp only
    rw [hmain.verdict]
  rw [hstep]
  exact hmain.map rfl rfl fun hM => ⟨_, hM, rfl⟩

theorem handles_nothingLeft (n : Program) (hx : x.kind = .endOfInput) :
    Handles ok (fun m => m = n) [] [x] (nothingLeft n) := by
  intro s hs ha
  have hend : s.lookahead.isEnd = true := by rw [State.lookahead_of_ahead ha, Token.isEnd, hx]; rfl
  unfold nothingLeft
  rw [if_pos hend]
  exact .of_takes (.refl n s) hs rfl

/-- A program is handled if its parts are. -/
theorem handles_programSteps {hts gts fts mts : List Token} {H : Program → Prop} {G : VarDecls → Prop} {F : Functions → Prop}
    {M : MainBlock → Prop} (hx : x.kind = .endOfInput)
    (hheader : HandlesLeaving .standard .moreGlobals ok H hts (gts ++ (fts ++ (mts ++ [x]))) (header {}))
    (hglobals : HandlesAfterJunk .standard .moreGlobals ok G gts (fts ++ (mts ++ [x])) (globalVars .standard))
    (hfunctions : Handles ok F fts (mts ++ [x]) (functions .standard)) (hmain : Handles ok M mts [x] (mainBlock .standard)) :
    Handles ok (fun n => ∃ m vs fs b, H m ∧ G vs ∧ F fs ∧ M b ∧ n = { m with globals := vs, functions := fs, main := b })
      (hts ++ (gts ++ (fts ++ mts))) [x] (sequence (programSteps .standard) {}) := by
  have hheader' : HandlesLeaving .standard .moreGlobals ok H hts ((gts ++ (fts ++ mts)) ++ [x]) (header {}) := by
    simpa using hheader
  have hglobals' : HandlesAfterJunk .standard .moreGlobals ok G gts ((fts ++ mts) ++ [x]) (globalVars .standard) := by
    simpa using hglobals
  refine HandlesLeaving.cons hheader' fun m hm => HandlesAfterJunk.cons (.child
    (P := fun n => ∃ vs, G vs ∧ n = { m with globals := vs }) hglobals' fun vs hvs => ⟨vs, hvs, rfl⟩) fun n hn => ?_
  obtain ⟨vs, hvs, rfl⟩ := hn
  refine .cons (.child (P := fun n => ∃ fs, F fs ∧ n = { m with globals := vs, functions := fs }) hfunctions
    fun fs hfs => ⟨fs, hfs, rfl⟩) fun n hn => ?_
  obtain ⟨fs, hfs, rfl⟩ := hn
  rw [← List.append_nil mts]
  refine .cons (handles_mainStep _ (by simpa using hmain)) fun n hn => .last ((handles_nothingLeft n hx).weaken fun n' hn' => ?_)
  obtain ⟨b, hb, rfl⟩ := hn
  exact ⟨m, vs, fs, b, hm, hvs, hfs, hb, hn'⟩

/-- The parts of a program handle the tokens given, of which the last is the end of its input, and make of them what is the program
outside of a region. -/
def HandlesOutside (ok : Token → Prop) (n : Program) (r : Region) (ts : List Token) : Prop :=
  ∃ us, ts = us ++ [n.eof.toToken] ∧
    Handles ok (fun m => ({ m with eof := n.eof } : Program).bare.outside r = n.bare.outside r) us [n.eof.toToken]
      (sequence (programSteps .standard) {})

section

variable {n : Program} (hn : n.Complete)
include hn

/-! What the parts of a complete program start with, and how those are handled that are not damaged. -/

theorem startsWith_main_of_complete : StartsWith .main (takenTokens n.main.element.leaves ++ [n.eof.toToken]) :=
  (startsWith_main hn.main).append _

theorem first_of_functions {rest : List Token} (hrest : StartsWith .main rest) :
    ∃ x xs, takenTokens n.functions.element.leaves ++ rest = x :: xs ∧ x.kind ∈ [TokenKind.function, .main] := by
  obtain ⟨y, ys, rfl, hmain⟩ := hrest
  obtain ⟨x, xs, hx, hkind⟩ := exists_first_of_many (fun _ => startsWith_function) hn.functions y ys
  rw [Functions.leaves_element, hx]
  exact ⟨x, xs, rfl, by simpa [hmain] using hkind⟩

theorem first_of_globals {rest : List Token} (hrest : ∃ x xs, rest = x :: xs ∧ x.kind ∈ [TokenKind.function, .main]) :
    ∃ x xs, takenTokens (n.globals.element .globalVars).leaves ++ rest = x :: xs ∧ x.kind ∈ headerRestarts := by
  obtain ⟨y, ys, rfl, hfunction⟩ := hrest
  obtain ⟨x, xs, hx, hkind⟩ := exists_first_of_many (fun _ => startsWith_var) hn.globals y ys
  rw [VarDecls.leaves_element, hx]
  refine ⟨x, xs, rfl, ?_⟩
  rcases hkind with hkind | hkind
  · rw [hkind]
    decide
  · rw [hkind]
    revert hfunction
    cases y.kind <;> decide

theorem handlesLeaving_header {rest : List Token} (hrest : rest ≠ []) :
    HandlesLeaving .standard .moreGlobals ok
      (fun m => m.bare = ({ keyword := n.keyword, name := n.name, colon := n.colon } : Program).bare)
      (takenTokens n.heading) rest (header {}) := by
  have hheading : takenTokens n.heading = [n.keyword.toToken, n.name.toToken, n.colon.toToken] := by
    simp [Program.heading, hn.keyword.token?, hn.name.token?, hn.colon.token?]
  rw [hheading]
  exact (Handles.next (builds_header hn) rfl hrest).leaving

theorem handles_globals {rest : List Token} (hrest : ∃ x xs, rest = x :: xs ∧ x.kind ∈ [TokenKind.function, .main]) :
    HandlesAfterJunk .standard .moreGlobals ok (fun m => m.bare = n.globals.bare)
      (takenTokens (n.globals.element .globalVars).leaves) rest (globalVars .standard) := by
  obtain ⟨x, xs, rfl, hkind⟩ := hrest
  refine handles_decls hn.globals rfl ?_
  revert hkind
  cases x.kind <;> decide

theorem handles_functions {rest : List Token} (hrest : StartsWith .main rest) :
    Handles ok (fun m => m.bare = n.functions.bare) (takenTokens n.functions.element.leaves) rest (functions .standard) := by
  obtain ⟨x, xs, rfl, hx⟩ := hrest
  exact .ofRebuilds rebuilds_functions hn.functions rfl (by rw [hx]; rfl)

theorem handles_main (x : Token) :
    Handles ok (fun m => m.bare = n.main.bare) (takenTokens n.main.element.leaves) [x] (mainBlock .standard) :=
  .ofRebuilds rebuilds_mainBlock hn.main rfl trivial

/-- A program is handled if its parts after the header are, and has a property if the parts give it that. -/
theorem handles_of_parts {P : Program → Prop} {gts fts mts : List Token} {G : VarDecls → Prop} {F : Functions → Prop}
    {M : MainBlock → Prop}
    (hglobals : HandlesAfterJunk .standard .moreGlobals ok G gts (fts ++ (mts ++ [n.eof.toToken])) (globalVars .standard))
    (hfunctions : Handles ok F fts (mts ++ [n.eof.toToken]) (functions .standard))
    (hmain : Handles ok M mts [n.eof.toToken] (mainBlock .standard))
    (hparts : ∀ vs fs b, G vs → F fs → M b →
      P { n.bare with globals := vs.bare, functions := fs.bare, main := b.bare }) :
    Handles ok (fun m => P ({ m with eof := n.eof } : Program).bare) (takenTokens n.heading ++ (gts ++ (fts ++ mts)))
      [n.eof.toToken] (sequence (programSteps .standard) {}) := by
  refine (handles_programSteps hn.eof.2 (handlesLeaving_header hn (by simp)) hglobals hfunctions hmain).weaken fun m hm => ?_
  obtain ⟨m, vs, fs, b, hm, hvs, hfs, hb, rfl⟩ := hm
  have hbare : ({ m with globals := vs, functions := fs, main := b, eof := n.eof } : Program).bare =
      { m.bare with globals := vs.bare, functions := fs.bare, main := b.bare, eof := n.eof } := rfl
  rw [hbare, hm]
  exact hparts vs fs b hvs hfs hb

/-- A program is handled if its parts after the header are, and is the same outside of a region if the parts are. -/
theorem handlesOutside_of_parts {r : Region} {ts gts fts mts : List Token} {G : VarDecls → Prop} {F : Functions → Prop}
    {M : MainBlock → Prop} (hts : ts = takenTokens n.heading ++ (gts ++ (fts ++ (mts ++ [n.eof.toToken]))))
    (hglobals : HandlesAfterJunk .standard .moreGlobals ok G gts (fts ++ (mts ++ [n.eof.toToken])) (globalVars .standard))
    (hfunctions : Handles ok F fts (mts ++ [n.eof.toToken]) (functions .standard))
    (hmain : Handles ok M mts [n.eof.toToken] (mainBlock .standard))
    (hparts : ∀ vs fs b, G vs → F fs → M b →
      ({ n.bare with globals := vs.bare, functions := fs.bare, main := b.bare } : Program).outside r = n.bare.outside r) :
    HandlesOutside ok n r ts :=
  ⟨takenTokens n.heading ++ (gts ++ (fts ++ mts)), by simp [hts],
    handles_of_parts (P := fun m => m.outside r = n.bare.outside r) hn hglobals hfunctions hmain hparts⟩

/-- The header is damaged. -/
theorem handlesOutside_header (he : n.excerpt? .header = some e) (hdamage : ∀ t ∈ damage, t.kind ∉ headerLimits)
    (hok : ∀ t ∈ e.touched damage [], ok t) : HandlesOutside ok n .header (e.replace damage) := by
  obtain rfl := Option.some.inj he
  have hmain := startsWith_main_of_complete hn
  obtain ⟨x, xs, hfirst, hx⟩ := first_of_globals hn (first_of_functions hn hmain)
  have hlimits : ∀ t ∈ damage, t.kind ∉ headerRestarts.insert .endOfInput := by
    intro t ht
    have h := hdamage t ht
    revert h
    cases t.kind <;> decide
  have hheader : HandlesLeaving .standard .moreGlobals ok (fun _ => True) damage (x :: xs) (header {}) := by
    refine handlesLeaving_damaged_header hx hlimits ?_
    simpa [Excerpt.touched, hn.eof.token?, hfirst] using hok
  rw [← hfirst] at hheader
  refine ⟨damage ++ (takenTokens (n.globals.element .globalVars).leaves ++ (takenTokens n.functions.element.leaves ++
    takenTokens n.main.element.leaves)), by simp [Excerpt.replace, hn.eof.token?], ?_⟩
  refine (handles_programSteps hn.eof.2 hheader (handles_globals hn (first_of_functions hn hmain)) (handles_functions hn hmain)
    (handles_main hn _)).weaken fun m hm => ?_
  obtain ⟨m, vs, fs, b, -, hvs, hfs, hb, rfl⟩ := hm
  simp [Program.outside, Program.bare, hvs, hfs, hb]

/-- A global declaration is damaged. -/
theorem handlesOutside_globalDecl {i : Nat} (he : n.excerpt? (.globalDecl i) = some e)
    (hdamage : ∀ t ∈ damage, t.kind ∉ declLimits) (hok : ∀ t ∈ e.touched damage [], ok t) :
    HandlesOutside ok n (.globalDecl i) (e.replace damage) := by
  obtain ⟨e', he', rfl⟩ := Option.map_eq_some_iff.1 he
  have hmain := startsWith_main_of_complete hn
  obtain ⟨x, xs, hfirst, hx⟩ := first_of_functions hn hmain
  have hleave : Table.standard.action .moreGlobals x.kind = .leave ∧ x.kind ≠ .endOfInput := by
    revert hx
    cases x.kind <;> decide
  have hglobals : HandlesAfterJunk .standard .moreGlobals ok (fun m => m.bare.outside i = n.globals.bare.outside i)
      (e'.replace damage) (x :: xs) (globalVars .standard) := by
    refine handles_damaged_decls hn.globals he' rfl hdamage hleave.1 hleave.2 ?_
    simpa [Excerpt.touched_within, hn.eof.token?, hfirst] using hok
  rw [← hfirst] at hglobals
  refine handlesOutside_of_parts hn (by simp [Excerpt.replace_within, hn.eof.token?]) hglobals (handles_functions hn hmain)
    (handles_main hn _) fun vs fs b hvs hfs hb => ?_
  simp [Program.outside, Program.bare, hvs, hfs, hb]

/-- A part of a function is damaged. -/
theorem handlesOutside_inFunction {i : Nat} {part : FunctionPart} (he : n.excerpt? (.inFunction i part) = some e)
    (hallows : part.Allows (damage.map Token.kind)) (hok : ∀ t ∈ e.touched damage [], ok t) :
    HandlesOutside ok n (.inFunction i part) (e.replace damage) := by
  obtain ⟨e', he', rfl⟩ := Option.map_eq_some_iff.1 he
  obtain ⟨x, xs, hfirst, hx⟩ := startsWith_main_of_complete hn
  have hfunctions : Handles ok (fun m => m.bare.outside i part = n.functions.bare.outside i part) (e'.replace damage) (x :: xs)
      (functions .standard) := by
    refine handles_damaged_functions hn.functions he' hallows hx ?_
    simpa [Excerpt.touched_within, hn.eof.token?, hfirst] using hok
  rw [← hfirst] at hfunctions
  have hnext : ∃ y ys, e'.replace damage ++ (takenTokens n.main.element.leaves ++ [n.eof.toToken]) = y :: ys ∧
      y.kind ∈ [TokenKind.function, .main] := by
    obtain ⟨y, ys, hy, hkind⟩ :=
      startsWith_function_of_inList hn.functions (fun _ _ => startsWith_function_of_excerpt?) he'
    exact ⟨y, _, by rw [hy]; rfl, by simp [hkind]⟩
  refine handlesOutside_of_parts hn (by simp [Excerpt.replace_within, hn.eof.token?]) (handles_globals hn hnext) hfunctions
    (handles_main hn _) fun vs fs b hvs hfs hb => ?_
  simp [Program.outside, Program.bare, hvs, hfs, hb]

/-- The main block is damaged. -/
theorem handlesOutside_mainBlock (he : n.excerpt? .mainBlock = some e) (hdamage : ∀ t ∈ damage, t.kind ∉ blockLimits)
    (hok : ∀ t ∈ e.touched damage [], ok t) : HandlesOutside ok n .mainBlock (e.replace damage) := by
  obtain rfl := Option.some.inj he
  have hblock : Handles ok (fun _ => True) (n.main.block.excerpt.replace damage) [n.eof.toToken] (block .standard) := by
    refine handles_damaged_excerpt_block hn.main.block hdamage ?_
    simpa [Excerpt.touched_within, hn.eof.token?] using hok
  have hstart : StartsWith .main (n.main.keyword.toToken :: n.main.block.excerpt.replace damage ++ [n.eof.toToken]) :=
    ⟨_, _, rfl, hn.main.keyword.2⟩
  refine handlesOutside_of_parts hn (by simp [Excerpt.replace_within, hn.eof.token?, hn.main.keyword.token?])
    (handles_globals hn (first_of_functions hn hstart)) (handles_functions hn hstart) (handles_mainBlock hn.main hblock)
    fun vs fs b hvs hfs hb => ?_
  obtain ⟨c, -, hb⟩ := hb
  rw [hvs, hfs, hb]
  rfl

/-- A program of which a region is damaged is handled, and the result is the same outside of the region. -/
theorem handlesOutside_damaged {r : Region} (he : n.excerpt? r = some e) (hallows : r.Allows (damage.map Token.kind))
    (hok : ∀ t ∈ e.touched damage [], ok t) : HandlesOutside ok n r (e.replace damage) := by
  cases r with
  | header => exact handlesOutside_header hn he (fun t ht => hallows t.kind (List.mem_map_of_mem ht)) hok
  | globalDecl i => exact handlesOutside_globalDecl hn he (fun t ht => hallows t.kind (List.mem_map_of_mem ht)) hok
  | inFunction i part => exact handlesOutside_inFunction hn he hallows hok
  | mainBlock => exact handlesOutside_mainBlock hn he (fun t ht => hallows t.kind (List.mem_map_of_mem ht)) hok

end

/-- What is handled by the parts of a program is parsed. -/
theorem parse_of_handles {ts : TokenList} {P : Program → Prop}
    (h : Handles ok P ts.body [ts.sentinel] (sequence (programSteps .standard) {})) :
    (∀ r ∈ (parse ts).diagnostics, r.isFatal = false ∧ ∃ t, ok t ∧ r.AnchoredAt t) ∧
      ∃ m span, P m ∧ (parse ts).tree = { m with eof := .ofToken ts.sentinel, span := span } := by
  have hpassing := h _ ((State.ready_initial ts).attempt (.rule .start)) rfl
  obtain ⟨es, hr, -, hcalm⟩ := hpassing.run
  obtain ⟨htrace, span, htree⟩ := parseWith_of_run Table.standard_orderly hr
  have hdiag : (parse ts).diagnostics = reports (.attempt (.rule .start) .normal :: es) := diagnostics_of_trace htrace
  rw [hdiag]
  exact ⟨hcalm, _, span, hpassing.node, htree⟩

/-- What is handled up to the end of the input is parsed, and the tree has the properties that the node has without spans. -/
theorem parse_of_handled {ts : TokenList} {eof : Terminal} {us : List Token} {P : Program → Prop} (heof : eof.Holds .endOfInput)
    (hts : ts.toList = us ++ [eof.toToken])
    (h : Handles ok (fun m => P ({ m with eof := eof } : Program).bare) us [eof.toToken] (sequence (programSteps .standard) {})) :
    (∀ r ∈ (parse ts).diagnostics, r.isFatal = false ∧ ∃ t, ok t ∧ r.AnchoredAt t) ∧ P (parse ts).tree.bare := by
  obtain ⟨hbody, hsentinel⟩ := List.append_inj' hts rfl
  obtain hsentinel : ts.sentinel = eof.toToken := by simpa using hsentinel
  rw [← hbody, ← hsentinel] at h
  obtain ⟨hdiag, m, span, hm, htree⟩ := parse_of_handles h
  rw [htree, hsentinel, heof.ofToken_toToken]
  exact ⟨hdiag, hm⟩

/-- Parsing the tokens of a program of which a region is damaged. -/
theorem parse_damaged {ts : TokenList} {n : Program} {r : Region} (hn : n.Complete) (he : n.excerpt? r = some e)
    (hallows : r.Allows (damage.map Token.kind)) (hts : ts.toList = e.replace damage) :
    (∀ d ∈ (parse ts).diagnostics, d.isFatal = false ∧ ∃ t ∈ e.touched damage [], d.AnchoredAt t) ∧
      (parse ts).tree.bare.outside r = n.bare.outside r := by
  obtain ⟨us, hus, hhandles⟩ : HandlesOutside (fun t => t ∈ e.touched damage []) n r (e.replace damage) :=
    handlesOutside_damaged hn he hallows fun _ h => h
  exact parse_of_handled (P := fun m => m.outside r = n.bare.outside r) hn.eof (hts.trans hus) hhandles

end Parser

/-! ## Edits -/

/-- An edit of an excerpt: other tokens inside, and around them the same ones, which may stand at other places now. -/
structure Excerpt.Edit (e : Excerpt) where
  before : List Token
  opening : List Token
  inside : List Token
  closing : List Token
  after : List Token
  before_same : SameTexts before (takenTokens e.before)
  opening_same : SameTexts opening (takenTokens e.opening)
  closing_same : SameTexts closing (takenTokens e.closing)
  after_same : SameTexts after (takenTokens e.after)

namespace Excerpt.Edit

variable {e : Excerpt}

/-- All tokens after an edit. -/
def tokens (d : e.Edit) : List Token := d.before ++ (d.opening ++ (d.inside ++ (d.closing ++ d.after)))

/-- The tokens of the region after an edit, the marks around them, and the first token that comes after. -/
def touched (d : e.Edit) : List Token := d.opening ++ (d.inside ++ (d.closing ++ d.after.take 1))

/-- Terminals that are the same but for their places have such tokens. -/
theorem sameTexts_takenTokens {ts us : List Terminal} (h : ts.map Terminal.unplaced = us.map Terminal.unplaced) :
    SameTexts (takenTokens ts) (takenTokens us) := by
  rw [SameTexts, ← takenTokens_map_unplaced, ← takenTokens_map_unplaced, h]

/-- The tokens of an excerpt, part by part. -/
theorem takenTokens_terminals (e : Excerpt) :
    takenTokens e.terminals = takenTokens e.before ++ (takenTokens e.opening ++ (takenTokens e.inside ++
      (takenTokens e.closing ++ takenTokens e.after))) := by
  simp [terminals]

/-- The program before an edit, with each token that the edit has moved at its new place, where excerpts are cut in such a way that
they have the terminals of the tree, and that these may be changed before or after. -/
theorem exists_moved_of_cut {cut : Program → Option Excerpt}
    (hterminals : ∀ n e, cut n = some e → e.terminals = n.element.leaves)
    (hmap : ∀ n : Program, cut n.unplaced = (cut n).map (Excerpt.map Terminal.unplaced)) {m : Program} (hm : m.Complete)
    (he : cut m = some e) (d : e.Edit) :
    ∃ (n : Program) (e' : Excerpt), n.Complete ∧ n.unplaced = m.unplaced ∧ cut n = some e' ∧
      e'.replace d.inside = d.tokens ∧ takenTokens e'.opening = d.opening ∧ takenTokens e'.closing = d.closing ∧
      takenTokens e'.after = d.after := by
  have hmoved : SameTexts (d.before ++ (d.opening ++ (takenTokens e.inside ++ (d.closing ++ d.after))))
      (takenTokens m.element.leaves) := by
    rw [← hterminals m e he, takenTokens_terminals]
    exact d.before_same.append (d.opening_same.append (.append rfl (d.closing_same.append d.after_same)))
  have hderives := (realized_program _).2 ⟨m, hm, rfl⟩
  rw [← hmoved.kinds_eq] at hderives
  obtain ⟨n, hn, hn'⟩ := (realized_program _).1 hderives
  have hsame : n.unplaced = m.unplaced := by
    have hcomplete : ∀ {n : Program}, n.Complete → n.unplaced.Complete := fun h => h.mapTerminals fun _ _ => .unplaced
    have hbare := (hcomplete hn).bare_eq_of_takenTokens_eq (hcomplete hm) (by
      rw [Program.unplaced, Program.leaves_mapTerminals, takenTokens_map_unplaced, Program.unplaced,
        Program.leaves_mapTerminals, takenTokens_map_unplaced, hn', hmoved])
    rwa [Program.unplaced, Program.unplaced, Program.bare_mapTerminals, Program.bare_mapTerminals] at hbare
  have hexcerpt : (cut n).map (Excerpt.map Terminal.unplaced) = some (e.map Terminal.unplaced) := by
    rw [← hmap, hsame, hmap, he]
    rfl
  obtain ⟨e', he', hmap⟩ := Option.map_eq_some_iff.1 hexcerpt
  rw [Excerpt.map, Excerpt.map, Excerpt.mk.injEq] at hmap
  obtain ⟨hbefore, hopening, hinside, hclosing, -⟩ := hmap
  -- The parts of both excerpts are of the same lengths, so those of the moved program are those of the edit.
  replace hn' := (congrArg takenTokens (hterminals n e' he')).trans hn'
  rw [takenTokens_terminals] at hn'
  obtain ⟨hb, hn'⟩ := List.append_inj hn' ((sameTexts_takenTokens hbefore).length_eq.trans d.before_same.length_eq.symm)
  obtain ⟨ho, hn'⟩ := List.append_inj hn' ((sameTexts_takenTokens hopening).length_eq.trans d.opening_same.length_eq.symm)
  obtain ⟨-, hn'⟩ := List.append_inj hn' (sameTexts_takenTokens hinside).length_eq
  obtain ⟨hc, ha⟩ := List.append_inj hn' ((sameTexts_takenTokens hclosing).length_eq.trans d.closing_same.length_eq.symm)
  exact ⟨n, e', hn, hsame, he', by rw [replace, tokens, hb, ho, hc, ha], ho, hc, ha⟩

/-- The program before an edit of a region, with each token that the edit has moved at its new place. -/
theorem exists_moved {m : Program} {r : Region} (hm : m.Complete) (he : m.excerpt? r = some e) (d : e.Edit) :
    ∃ (n : Program) (e' : Excerpt), n.Complete ∧ n.unplaced = m.unplaced ∧ n.excerpt? r = some e' ∧
      e'.replace d.inside = d.tokens ∧ e'.touched d.inside [] = d.touched := by
  obtain ⟨n, e', hn, hsame, he', hreplace, hopening, hclosing, hafter⟩ := exists_moved_of_cut
    (fun _ _ => Program.terminals_of_excerpt?) (fun n => n.excerpt?_mapTerminals Terminal.unplaced r) hm he d
  exact ⟨n, e', hn, hsame, he', hreplace, by rw [Excerpt.touched, touched, hopening, hclosing, hafter, List.append_nil]⟩

end Excerpt.Edit

open QuillFrontEnd.Parser

/-- Damage is contained. Let other tokens stand in place of one region of a program, of kinds that the region allows, and let the
tokens around it be moved. Then a parse does not give up, and reports nothing but at the tokens of the region, at the marks around
it and at the first token after it; there are as many global declarations and functions as before; and outside of the region the
tree is as before in all kinds, texts and missing terminals. -/
theorem damage_contained {ts ts' : TokenList} {r : Region} {e : Excerpt} (edit : e.Edit) (hprogram : IsProgram ts.kinds)
    (he : (parse ts).tree.excerpt? r = some e) (hallows : r.Allows (edit.inside.map Token.kind))
    (hts' : ts'.toList = edit.tokens) :
    ts.toList = takenTokens e.terminals ∧ (parse ts').isFatal = false ∧
      (∀ d ∈ (parse ts').diagnostics, ∃ t ∈ edit.touched, d.AnchoredAt t) ∧
      (parse ts').tree.globals.decls.length = (parse ts).tree.globals.decls.length ∧
      (parse ts').tree.functions.decls.length = (parse ts).tree.functions.decls.length ∧
      (parse ts').tree.unplaced.outside r = (parse ts).tree.unplaced.outside r := by
  obtain ⟨hcomplete, htokens⟩ := complete_tree_of_isProgram hprogram
  obtain ⟨n, e', hn, hsame, he', hreplace, htouched⟩ := edit.exists_moved hcomplete he
  obtain ⟨hdiag, houtside⟩ := parse_damaged hn he' hallows (hts'.trans hreplace.symm)
  rw [htouched] at hdiag
  have hunplaced : (parse ts').tree.unplaced.outside r = (parse ts).tree.unplaced.outside r := by
    have h := congrArg Program.unplaced houtside
    rw [Program.outside_unplaced, Program.outside_unplaced, Program.unplaced_bare, Program.unplaced_bare, hsame] at h
    exact h
  obtain ⟨hglobals, hfunctions⟩ := Program.length_eq_of_outside_eq hunplaced
  refine ⟨?_, ?_, fun d hd => (hdiag d hd).2, hglobals, hfunctions, hunplaced⟩
  · rw [Program.terminals_of_excerpt? he, htokens]
  · rw [ParseOutput.isFatal, List.any_eq_false]
    exact fun d hd => by simp [(hdiag d hd).1]

/-- In `program x: var number x; function x() {} main {}`, let `{ var ;` stand in place of all of the function after its keyword. -/
theorem damage_contained_in_function :
    let ts := TokenList.ofKinds [.program, .identifier, .colon, .var, .numberType, .identifier, .semicolon, .function, .identifier,
      .leftParen, .rightParen, .leftBrace, .rightBrace, .main, .leftBrace, .rightBrace]
    let ts' := TokenList.ofKinds [.program, .identifier, .colon, .var, .numberType, .identifier, .semicolon, .function, .leftBrace,
      .var, .semicolon, .main, .leftBrace, .rightBrace]
    IsProgram ts.kinds ∧ (parse ts').isFatal = false ∧ (parse ts').tree.functions.decls.length = 1 ∧
      (parse ts').tree.unplaced.outside (.inFunction 0 .whole) = (parse ts).tree.unplaced.outside (.inFunction 0 .whole) := by
  intro ts ts'
  have hprogram : IsProgram ts.kinds := isProgram_of_quiet (by decide +kernel)
  have hcount : (parse ts).tree.functions.decls.length = 1 := by decide +kernel
  let e := ((parse ts).tree.excerpt? (.inFunction 0 .whole)).getD { inside := [] }
  have he : (parse ts).tree.excerpt? (.inFunction 0 .whole) = some e := by decide +kernel
  let edit : e.Edit := {
    before := ts'.toList.take 8
    opening := []
    inside := (ts'.toList.drop 8).take 3
    closing := []
    after := ts'.toList.drop 11
    before_same := by decide +kernel
    opening_same := by decide +kernel
    closing_same := by decide +kernel
    after_same := by decide +kernel }
  have hallows : (Region.inFunction 0 .whole).Allows (edit.inside.map Token.kind) := ⟨by decide +kernel, by decide +kernel⟩
  have htokens : ts'.toList = edit.tokens := by decide +kernel
  obtain ⟨-, hfatal, -, -, hfunctions, houtside⟩ := damage_contained edit hprogram he hallows htokens
  exact ⟨hprogram, hfatal, hfunctions.trans hcount, houtside⟩

end QuillFrontEnd
