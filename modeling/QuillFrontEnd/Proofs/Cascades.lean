import QuillFrontEnd.Proofs.Outlook
import Mathlib.Data.List.Forall2

/-!
# Cascades

With the standard table the parser complains more than once of a token only in the cases that `Complaint.cascades` lists. For each
rule there is an outlook on what may stand at the next token after its phrase, and one on what may stand there if the phrase was
broken off; from one rule to the next they are checked by going through the kinds of token. For a whole parse it follows that a
second report at a token is in a cascade with the first, and that the only fatal report is the last one, at the sentinel.
-/

namespace QuillFrontEnd

namespace Parser

open QuillFrontEnd.Complaint

variable {D : Outlook}

/-- The error of a terminal or a basic type that is not there. -/
def surprise : Outlook := [([unexpected], ⟨fun _ => true⟩)]

/-! ## Types and declarations -/

theorem leads_basicType (h : (D.onlyAt fun k => !takes .standard .basicType k).Voiced unexpected surprise) :
    Leads D .fresh surprise (basicType .standard) := by
  refine .phrase rfl fun n xs s hs hD => ?_
  dsimp only
  split
  · rename_i k hk
    have hne : s.cursor.rest ≠ [] := hs.rest_ne_nil (fun h => Table.standard_orderly.basicType k (h ▸ hk))
    exact ⟨_, ⟨.ofMove (.shift hs.normal hne), hs.normal⟩, .of_matched (hD.shift hs.toSealed hne)⟩
  · rename_i hk
    have htakes : (!takes .standard .basicType s.nextKind) = true := by
      rw [takes]
      split
      · rename_i k h
        exact absurd h (hk k)
      · rfl
    exact ⟨_, .mismatch _ hs (Diagnostic.blames_of_code (by decide) _ _ _ _),
      .of_mismatched ((hD.onlyAt htakes).mismatch hs.normal h ⟨rfl, rfl, rfl, rfl, rfl, rfl⟩)⟩

/-- At an opening bracket the closing bracket of the dimension before it may be missing. -/
def atBracket : Outlook := [([], .single .leftBracket), ([missing .rightBracket], .single .leftBracket)]

/-- After a dimension its closing bracket may be missing. -/
def afterExtent : Outlook := .freshOr [([missing .rightBracket], .ofList [.leftBracket, .identifier])]

theorem leads_extent : Leads atBracket afterExtent surprise extent :=
  .phrase rfl <|
    .cons .fresh (.terminal _ _ (by decide)) <|
    .cons (.freshOr [([missing .integer], .single .rightBracket)]) (.terminal _ _ (by decide)) <|
    .cons afterExtent (.terminal _ _ (by decide)) (.nil (by decide))

theorem leads_dimension {rule : Rule} (hp : rule.resyncPolicy? = none) : Leads atBracket afterExtent surprise (dimension rule) :=
  .phrase hp (.child leads_extent _)

/-- After a type the closing bracket of its last dimension may be missing. -/
def afterType : Outlook := .freshOr [([missing .rightBracket], .single .identifier)]

/-- The errors of a type: also a dimension too many, with or without the bracket before it. -/
def typeError : Outlook :=
  surprise ++ [([thirdDimension], .single .leftBracket), ([thirdDimension, missing .rightBracket], .single .leftBracket)]

theorem leads_noExtraDimension : StepLeads afterExtent afterType typeError (noExtraDimension .standard) := by
  intro n xs s hs hD
  unfold noExtraDimension
  split
  · rename_i hact
    have hb : (extraDimension s.lookahead).Blames s.lookahead := Diagnostic.blames_of_code (by decide) _ _ _ _
    have hv : (afterExtent.onlyAt (Table.standard.refuses .thirdDimension)).Voiced thirdDimension typeError := by decide
    have hrefused := hD.onlyAt (show Table.standard.refuses .thirdDimension s.nextKind = true by simp [Table.refuses, hact])
    exact ⟨_, .mismatch n hs hb, .of_mismatched (hrefused.mismatch hs.normal hv ⟨rfl, rfl, rfl, rfl, rfl, rfl⟩)⟩
  · rename_i hact
    have hw : (afterExtent.onlyAt fun k => !Table.standard.refuses .thirdDimension k).Within afterType := by decide
    exact ⟨[], ⟨.refl s, hs.normal⟩, .of_matched ((hD.onlyAt (by simpa [Table.refuses] using hact)).within hw)⟩

theorem leads_typeSpec : Leads .fresh afterType typeError (typeSpec .standard) := by
  have hdim {rule : Rule} (hp : rule.resyncPolicy? = none) {D : Outlook} (hD : D.Within atBracket) :
      Leads D afterExtent typeError (dimension rule) := (leads_dimension hp).weaken hD (.refl _) (by decide)
  refine .phrase rfl <|
    .cons .fresh (.child ((leads_basicType (by decide)).weaken (.refl _) (.refl _) (by decide)) _) <|
    .cons afterType (.whenDescends (.cons afterExtent (.child (hdim rfl (by decide)) _) <|
      .cons afterType (.whenDescends (.cons afterExtent (.child (hdim rfl (by decide)) _) <|
        .cons afterType leads_noExtraDimension (.nil (.refl _))) (by decide)) (.nil (.refl _))) (by decide)) (.nil (.refl _))

/-- After a declaration its semicolon may be missing, or it broke off at a token at which the parser goes on. -/
def afterVarDecl : Outlook := .freshOr [([missing .semicolon], declarationStarts), ([unexpected], declarationStarts)]

theorem leads_declaredName : Leads afterType (.freshOr [([missing .identifier], .ofList [.comma, .semicolon])]) typeError
    declaredName := fun xs s hs hD => StepLeads.terminal .varDecl (fun _ t => [t]) (by decide) [] xs s hs hD

theorem leads_varDecl (h : Reads .var Rule.type.first D .fresh typeError) : Leads D afterVarDecl [] (varDecl .standard) := by
  refine .phrase_recovering typeError rfl ?_ (by decide) (by decide) (by decide)
  exact .cons .fresh (.terminal _ _ h) <|
    .cons afterType (.child leads_typeSpec _) <|
    .cons (.freshOr [([missing .identifier], .single .semicolon)])
      (.child (.separated Table.standard_orderly.moreNames (by decide) leads_declaredName (by decide)) _) <|
    .cons afterVarDecl (.terminal _ _ (by decide)) (.nil (.refl _))

theorem leads_varDecls {rule : Rule} (hp : rule.resyncPolicy? = none) {d : Decision} {ok : Outlook}
    (hset : Settles .standard d D) (hd : ∀ k r, Table.standard.action d k = .descend r → k = .var)
    (h : Reads .var Rule.type.first (D.onlyAt (descends .standard d)) .fresh typeError) (hback : afterVarDecl.Within D)
    (hleave : (D.onlyAt (leaves .standard d)).Within ok) :
    Leads D ok [] (phrase rule {} (child (many .standard d (varDecl .standard)) fun (n : VarDecls) decls => { n with decls })) :=
  .phrase hp (.child (.many hset (accounts_varDecl Table.standard_orderly).2 hd
    ((leads_varDecl h).weaken (.refl _) hback (.refl _)) hleave) _)

/-- After the header of a program, and between its declarations. -/
def atGlobals : Outlook := .freshOr [
  ([missing .colon], declarationStarts), ([missing .semicolon], declarationStarts), ([unexpected], declarationStarts)]

/-- After the declarations of a program. -/
def afterGlobals : Outlook := .freshOr [
  ([missing .colon], .ofList [.function, .main, .leftBrace]), ([missing .semicolon], .ofList [.function, .main, .leftBrace]),
  ([unexpected], .ofList [.function, .main, .leftBrace])]

theorem leads_globalVars : Leads atGlobals afterGlobals [] (globalVars .standard) :=
  leads_varDecls rfl (by decide) Table.standard_orderly.moreGlobals (by decide) (by decide) (by decide)

/-- After the parameters of a function, and between its declarations. -/
def atLocals : Outlook := .freshOr [
  ([missing .rightParen], .ofList [.var, .leftBrace]), ([missing .rightParen, unexpected], .ofList [.var, .leftBrace]),
  ([missing .semicolon], declarationStarts), ([unexpected], declarationStarts)]

/-- After the declarations of a function. -/
def afterLocals : Outlook := [
  ([], .ofList [.leftBrace, .function, .main, .endOfInput]), ([missing .rightParen], .single .leftBrace),
  ([missing .rightParen, unexpected], .single .leftBrace), ([missing .semicolon], .ofList [.leftBrace, .function, .main]),
  ([unexpected], .ofList [.leftBrace, .function, .main])]

theorem leads_localVars : Leads atLocals afterLocals [] (localVars .standard) :=
  leads_varDecls rfl (by decide) Table.standard_orderly.moreLocals (by decide) (by decide) (by decide)

/-! ## Blocks -/

/-- Before a statement or the end of its block, the brace that opens the block may be missing. -/
def inBlock : Outlook := .freshOr [([missing .leftBrace], .ofList [.semicolon, .rightBrace])]

theorem leads_statement : Leads (inBlock.onlyAt (descends .standard .moreStatements)) inBlock [] statement := by
  refine .phrase_recovering [] rfl ?_ (by decide) (by decide) (by decide)
  exact .cons _ (.child (.phrase rfl (.nil (.refl _))) _) <| .cons inBlock (.terminal _ _ (by decide)) (.nil (.refl _))

/-- After a block that was begun, the brace that closes it may be missing. -/
def afterBlock : Outlook := .freshOr [([missing .rightBrace], .ofList [.function, .main, .endOfInput])]

/-- After the statements of a block the brace that opens it may be missing. -/
def afterStatements : Outlook := [
  ([], .ofList [.rightBrace, .function, .main, .endOfInput]), ([missing .leftBrace], .single .rightBrace)]

/-- A block can only fail at its first brace, with the errors `err`. -/
theorem leads_block (ok err : Outlook) (h : Reads .leftBrace (Rule.statement.first.insert .rightBrace) D inBlock err)
    (hok : afterBlock.Within ok) (hstop : (err.stopped (.ofList [.function, .main])).Within ok)
    (hended : err.atEnd.Voiced ended closed) : Leads D ok [] (block .standard) := by
  refine .phrase_recovering err rfl ?_ (fun e he k hk hmem => hok e (List.mem_append_left _ he) k hk hmem) hstop hended
  have hstatements : Leads inBlock afterStatements [] _ :=
    .many (by decide) statement_passesAt Table.standard_orderly.moreStatements leads_statement (by decide)
  have hright (put : Block → Terminal → Block) :
      StepLeads afterStatements afterBlock [] (terminal .block .rightBrace Rule.block.follow put) := .terminal _ _ (by decide)
  exact .cons inBlock (.terminal _ _ h) <|
    .cons _ (.child (hstatements.weaken (.refl _) (.refl _) nofun) _) <|
    .cons ok (fun n => (hright _ n).weaken (.refl _) hok nofun) (.nil (.refl _))

/-! ## Functions -/

/-- Before the parameters of a function, the parenthesis that opens them may be missing. -/
def atParams : Outlook := .freshOr [([missing .leftParen], .ofList [.numberType, .booleanType, .rightParen])]

/-- After the parameters of a function: a name or the parenthesis before them may be missing, or they broke off at a token at which
the parser goes on. -/
def afterParams : Outlook := .freshOr [
  ([missing .leftParen], .single .rightParen), ([missing .identifier], .single .rightParen),
  ([unexpected], declarationStarts.insert .rightParen)]

/-- Before a parameter: the parenthesis before the first one may be missing. -/
def atParam : Outlook := .freshOr [([missing .leftParen], .ofList [.numberType, .booleanType])]

/-- After a parameter its name may be missing. -/
def afterParam : Outlook := .freshOr [([missing .identifier], .ofList [.comma, .rightParen])]

theorem leads_param : Leads atParam afterParam surprise (param .standard) := by
  unfold param
  refine (show StepLeads atParam afterParam surprise (sequence _) from ?_) ({} : Param)
  exact .cons .fresh (.child (leads_basicType (by decide)) _) (.cons _ (.terminal _ _ (by decide)) (.nil (.refl _)))

theorem leads_paramList : Leads (atParams.onlyAt (descends .standard .anyParams)) afterParams [] (paramList .standard) := by
  refine .phrase_recovering surprise rfl ?_ (by decide) (by decide) (by decide)
  have hparams := Leads.separated Table.standard_orderly.moreParams (by decide) (StepLeads.child leads_param (fun _ p => [p]) [])
    (show Outlook.Within _ afterParams by decide)
  exact .child (hparams.weaken (by decide) (.refl _) (.refl _)) _

/-- The errors of a function: one that broke off in its parameters may also be without its parenthesis. -/
def functionError : Outlook := surprise ++ [([unexpected, unexpected], .ofList [.function, .main])]

/-- After a function: its block may be open, or it broke off before the next one. -/
def afterFunction : Outlook := .freshOr [
  ([missing .rightBrace], .ofList [.function, .main, .endOfInput]), ([unexpected], .ofList [.function, .main]),
  ([unexpected, unexpected], .ofList [.function, .main]), ([unexpected, missing .semicolon], .ofList [.function, .main])]

theorem leads_functionDecl (h : Reads .function (.single .identifier) D .fresh functionError) :
    Leads D afterFunction [] (functionDecl .standard) := by
  refine .phrase_recovering functionError rfl ?_ (by decide) (by decide) (by decide)
  have hbody := leads_block (D := afterLocals) afterFunction
    (functionError ++ [([unexpected, missing .semicolon], .ofList [.function, .main])])
    (by decide) (by decide) (by decide) (by decide)
  exact .cons .fresh (.terminal _ _ h) <|
    .cons (.freshOr [([missing .identifier], .single .leftParen)]) (.terminal _ _ (by decide)) <|
    .cons atParams (.terminal _ _ (by decide)) <|
    .cons afterParams (.optional (by decide) (.child (leads_paramList.weaken (.refl _) (.refl _) nofun) _) (by decide)) <|
    .cons atLocals (.terminal _ _ (by decide)) <|
    .cons afterLocals (.child (leads_localVars.weaken (.refl _) (.refl _) nofun) _) <|
    .cons afterFunction (.child (hbody.weaken (.refl _) (.refl _) nofun) _) (.nil (.refl _))

/-- Between the functions of a program. -/
def atFunctions : Outlook := afterGlobals ++ afterFunction

/-- After the functions of a program. -/
def atMain : Outlook := [
  ([], .ofList [.main, .leftBrace, .endOfInput]), ([missing .colon], .ofList [.main, .leftBrace]),
  ([missing .semicolon], .ofList [.main, .leftBrace]), ([unexpected], .ofList [.main, .leftBrace]),
  ([missing .rightBrace], .ofList [.main, .endOfInput]), ([unexpected, unexpected], .single .main),
  ([unexpected, missing .semicolon], .single .main)]

theorem leads_functions : Leads afterGlobals atMain [] (functions .standard) := by
  refine .phrase rfl (.child ?_ _)
  have hmany := Leads.many (D := atFunctions) (by decide) (accounts_functionDecl Table.standard_orderly).2
    Table.standard_orderly.moreFunctions ((leads_functionDecl (by decide)).weaken (.refl _) (by decide) (.refl _))
    (show Outlook.Within _ atMain by decide)
  exact hmany.weaken (by decide) (.refl _) (.refl _)

/-! ## Programs -/

/-- In the header of a program its name and its colon may be missing; after an error the parse goes on at a declaration, a function
or a block. -/
theorem leads_header : StepLeads .fresh atGlobals [] header := by
  have hsteps : StepLeads .fresh atGlobals surprise (sequence headerSteps) :=
    .cons (.freshOr [([missing .program], .single .identifier)]) (.terminal _ _ (by decide)) <|
    .cons (.freshOr [([missing .identifier], .single .colon)]) (.terminal _ _ (by decide)) <|
    .cons atGlobals (.terminal _ _ (by decide)) (.nil (.refl _))
  intro n xs s hs hD
  obtain ⟨es, hr, hends⟩ := hsteps n xs s hs hD
  unfold header
  dsimp only
  split
  · rename_i hv
    have hm := hr.recovering hv
    obtain ⟨fs, hr', -⟩ := restart_reaches (sequence headerSteps n s).node hm
    refine ⟨es ++ fs, .trans hr.run hr', ?_⟩
    obtain ⟨-, hstands, hnext⟩ := stands_dropWhile (hr.run.sealed hs.toSealed) hm (hends.mismatched hv)
      fun k => !headerRestarts.contains k
    unfold restart
    dsimp only
    split
    · rename_i hmem
      have hw : (surprise.stopped headerRestarts).Within atGlobals := by decide
      exact .of_matched ((hstands.onlyAt hmem).resume.within hw)
    · rename_i hmem
      have hlast := hnext.resolve_right (by simpa [KindSet.mem_iff] using hmem)
      have hv : surprise.atEnd.Voiced ended closed := by decide
      exact .of_outOfInput ((hstands.onlyAt (by rw [hlast]; rfl)).abandon hv .start)
  · rename_i hv
    exact ⟨es, hr, hends.matched, fun h => absurd h hv, hends.outOfInput⟩

/-- After the main block. -/
def afterMain : Outlook := .freshOr [
  ([missing .rightBrace], .ofList [.function, .main, .endOfInput]), ([unexpected], .ofList [.function, .main])]

/-- The errors of the main block, all of them at the end of the input. -/
def mainError : Outlook := [([unexpected], .single .endOfInput), ([unexpected, missing .rightBrace], .single .endOfInput)]

/-- Before the block of the main block its keyword may be missing, whatever was missing before that. -/
def atMainBrace : Outlook := .freshOr [
  ([missing .main], .single .leftBrace), ([missing .main, missing .colon], .single .leftBrace),
  ([missing .main, missing .semicolon], .single .leftBrace), ([missing .main, unexpected], .single .leftBrace)]

theorem leads_mainBlock : Leads atMain afterMain mainError (mainBlock .standard) := by
  have hblock : Leads atMainBrace afterMain [] (block .standard) :=
    leads_block afterMain surprise (by decide) (by decide) (by decide) (by decide)
  exact .phrase rfl <| .cons atMainBrace (.terminal _ _ (by decide)) <|
    .cons afterMain (.child (hblock.weaken (.refl _) (.refl _) nofun) _) (.nil (.refl _))

theorem leads_mainStep : StepLeads atMain afterMain [] (mainStep .standard) := by
  intro n xs s hs hD
  obtain ⟨es, hr, hends⟩ := leads_mainBlock xs s hs hD
  unfold mainStep child
  generalize mainBlock .standard s = o at hr hends
  dsimp only
  split
  · rename_i hv
    have hv' : mainError.Voiced ended closed := by decide
    have hstands := hends.mismatched hv
    have hended : o.state.cursor.rest = [] := by
      obtain ⟨cs, -, e, he, -, hk⟩ := hstands.covered
      have hend : ∀ e ∈ mainError, ∀ k ∈ TokenKind.all, k ∈ e.2 → k = .endOfInput := by decide
      exact (hr.run.sealed hs.toSealed).nextKind_eq_endOfInput_iff.1 (hend e he _ (TokenKind.mem_all _) hk)
    exact ⟨_, ⟨hr.run.trans (.ofMove (.abandon .main hended)), hended⟩, .of_outOfInput (hstands.abandon hv' .main)⟩
  · rename_i hv
    exact ⟨es, ⟨hr.run, hr.fits⟩, hends.matched, fun h => absurd h hv, hends.outOfInput⟩

/-- After the parse has come to its end, the brace that closes the main block may be missing there. -/
def afterProgram : Outlook := .freshOr [([missing .rightBrace], .single .endOfInput)]

theorem leads_nothingLeft : StepLeads afterMain afterProgram [] nothingLeft := by
  intro n xs s hs hD
  obtain ⟨es, hr, -⟩ := nothingLeft_reaches n hs
  refine ⟨es, hr, ?_⟩
  unfold nothingLeft
  split
  · rename_i hend
    have hw : (afterMain.onlyAt (· == .endOfInput)).Within afterProgram := by decide
    exact .of_matched ((hD.onlyAt hend).within hw)
  · rename_i hend
    have hv : (afterMain.onlyAt (· != .endOfInput)).Voiced trailing
        ([[trailing], [trailing, missing .rightBrace], [trailing, unexpected]].map fun cs => (cs, ⟨fun _ => true⟩)) := by decide
    have hb : (trailingInput s.lookahead).Blames s.lookahead := Diagnostic.blames_of_code (by decide) _ _ _ _
    have hsealed := (Run.ofMove (.mismatch _ hs.normal hb)).sealed hs.toSealed
    have hne : (s.mismatch (trailingInput s.lookahead)).cursor.rest ≠ [] := by
      rw [State.cursor_mismatch]
      exact fun h => hend (hs.isEnd_lookahead_iff.2 h)
    have hleft : Stands xs (afterMain.onlyAt (· != .endOfInput)) s :=
      hD.onlyAt (by simpa [Token.isEnd, State.nextKind] using hend)
    have hm := hleft.mismatch hs.normal hv (d := trailingInput s.lookahead) ⟨rfl, rfl, rfl, rfl, rfl, rfl⟩
    have hw : Outlook.fresh.Within afterProgram := by decide
    exact .of_matched ((hm.dropWhile_of_next hsealed hne rfl).resume.within hw)

theorem leads_programSteps : StepLeads .fresh afterProgram [] (sequence (programSteps .standard)) :=
  .cons atGlobals leads_header <|
  .cons afterGlobals (.child leads_globalVars _) <|
  .cons atMain (.child leads_functions _) <|
  .cons afterMain leads_mainStep <|
  .cons afterProgram leads_nothingLeft (.nil (.refl _))

/-! ## What a trace says of its reports -/

variable {xs : List Token} {trace : List Event} {t : Token} {cs : List Complaint}

theorem reports_reverse_cons (e : Event) (es : List Event) :
    reports (e :: es).reverse = reports es.reverse ++ e.reported?.toList := by
  rw [List.reverse_cons, reports_append, reports_cons, reports_nil, List.append_nil]

theorem placesOf_reverse_cons (e : Event) (es : List Event) :
    placesOf Event.reported? 0 (e :: es).reverse =
      placesOf Event.reported? 0 es.reverse ++ e.reported?.toList.map (Prod.mk (passes es.reverse).length) := by
  rw [placesOf, List.reverse_cons, placed_append, List.filterMap_append, Nat.zero_add, placed, placed, placesOf]
  cases h : e.reported? with
  | none => rw [List.filterMap_cons_none (by rw [h]; rfl)]; rfl
  | some d => rw [List.filterMap_cons_some (by rw [h]; rfl)]; rfl

/-- Two reports at one token, the first of them before the second. -/
def Cascading (xs : List Token) (d d' : Diagnostic) : Prop :=
  ∃ t ∈ xs, ∃ c c' cs, d.Voices c t ∧ d'.Voices c' t ∧ c ∈ cs ∧ Allowed (c' :: cs) t.kind

/-- Of two reports the second is at a later token, or is in a cascade with the first; and those that are not at an earlier token
voice the complaints that stand at the next one. -/
theorem Standing.cascading (h : Standing xs trace t cs) :
    ((placesOf Event.reported? 0 trace.reverse).Pairwise fun p q => p.1 < q.1 ∨ p.1 = q.1 ∧ Cascading xs p.2 q.2) ∧
      ∀ p ∈ placesOf Event.reported? 0 trace.reverse,
        p.1 < (passes trace.reverse).length ∨ p.1 = (passes trace.reverse).length ∧ ∃ c ∈ cs, p.2.Voices c t := by
  induction h with
  | start t => exact ⟨.nil, fun _ hp => absurd hp List.not_mem_nil⟩
  | @pass es t cs e t' _ _ he ih =>
    have hnone : e.reported? = none := by cases e <;> first | rfl | cases he
    have hlength : (passes (e :: es).reverse).length = (passes es.reverse).length + 1 := by
      rw [List.reverse_cons, passes_append, passes_cons, he]
      simp
    rw [placesOf_reverse_cons, hnone, Option.toList_none, List.map_nil, List.append_nil, hlength]
    refine ⟨ih.1, fun p hp => .inl ?_⟩
    have hle := ih.2 p hp
    omega
  | @silent es t cs e _ hpass hreport ih =>
    have hpasses : passes (e :: es).reverse = passes es.reverse := by
      rw [List.reverse_cons, passes_append, passes_cons, hpass]
      simp
    rw [placesOf_reverse_cons, hreport, Option.toList_none, List.map_nil, List.append_nil, hpasses]
    exact ih
  | @report es t cs d c _ hmem hd hallowed ih =>
    have hpasses : passes (.report d :: es).reverse = passes es.reverse := by
      rw [List.reverse_cons, passes_append]
      exact List.append_nil _
    rw [placesOf_reverse_cons, hpasses]
    change (_ ++ [((passes es.reverse).length, d)]).Pairwise _ ∧ ∀ p ∈ _ ++ [((passes es.reverse).length, d)], _
    refine ⟨List.pairwise_append.2 ⟨ih.1, List.pairwise_singleton _ _, fun p hp q hq => ?_⟩, fun p hp => ?_⟩
    · rw [List.mem_singleton.1 hq]
      refine (ih.2 p hp).imp_right fun hplace => ⟨hplace.1, ?_⟩
      obtain ⟨-, c₀, hc₀, hvoices⟩ := hplace
      exact ⟨t, hmem, c₀, c, cs, hvoices, hd, hc₀, hallowed⟩
    · rcases List.mem_append.1 hp with hp | hp
      · refine (ih.2 p hp).imp_right fun hplace => ⟨hplace.1, ?_⟩
        obtain ⟨-, c₀, hc₀, hvoices⟩ := hplace
        exact ⟨c₀, List.mem_cons_of_mem _ hc₀, hvoices⟩
      · rw [List.mem_singleton.1 hp]
        exact .inr ⟨rfl, c, List.mem_cons_self, hd⟩

/-- Every report voices a complaint at a token. -/
theorem Standing.voices (h : Standing xs trace t cs) : ∀ d ∈ reports trace.reverse, ∃ c, ∃ x ∈ xs, d.Voices c x := by
  induction h with
  | start t => exact fun _ hd => absurd hd List.not_mem_nil
  | @pass es t cs e t' _ _ he ih =>
    have hnone : e.reported? = none := by cases e <;> first | rfl | cases he
    rwa [reports_reverse_cons, hnone, Option.toList_none, List.append_nil]
  | @silent es t cs e _ _ hreport ih => rwa [reports_reverse_cons, hreport, Option.toList_none, List.append_nil]
  | @report es t cs d c _ hmem hd _ ih =>
    intro d' hd'
    rw [reports_reverse_cons] at hd'
    rcases List.mem_append.1 hd' with hd' | hd'
    · exact ih d' hd'
    · obtain rfl := List.mem_singleton.1 hd'
      exact ⟨c, t, hmem, hd⟩

/-- A parse gives up once, with its last report. -/
theorem Standing.fatal_last (h : Standing xs trace t cs) :
    (cs.head? ≠ some ended ∧ ∀ d ∈ reports trace.reverse, d.isFatal = false) ∨
      (cs.head? = some ended ∧ t.kind = .endOfInput ∧ t ∈ xs ∧ ∃ front d, reports trace.reverse = front ++ [d] ∧
        (∀ e ∈ front, e.isFatal = false) ∧ d.Voices ended t) := by
  induction h with
  | start t => exact .inl ⟨nofun, fun _ hd => absurd hd List.not_mem_nil⟩
  | @pass es t cs e t' _ hend he ih =>
    have hnone : e.reported? = none := by cases e <;> first | rfl | cases he
    rw [reports_reverse_cons, hnone, Option.toList_none, List.append_nil]
    rcases ih with ⟨-, hall⟩ | ⟨-, hkind, -⟩
    · exact .inl ⟨nofun, hall⟩
    · exact absurd hkind hend
  | @silent es t cs e _ _ hreport ih =>
    rw [reports_reverse_cons, hreport, Option.toList_none, List.append_nil]
    exact ih
  | @report es t cs d c _ hmem hd hallowed ih =>
    rw [reports_reverse_cons]
    change _ ∨ _ ∧ _ ∧ _ ∧ ∃ front d', reports es.reverse ++ [d] = front ++ [d'] ∧ _
    rcases ih with ⟨hhead, hall⟩ | ⟨hhead, -⟩
    · by_cases hc : c = ended
      · subst hc
        have hkind : t.kind = .endOfInput := hallowed.endOfInput
        exact .inr ⟨rfl, hkind, hmem, _, d, rfl, hall, hd⟩
      · refine .inl ⟨by simpa using hc, fun e he => ?_⟩
        rcases List.mem_append.1 he with he | he
        · exact hall e he
        · have hfatal := hd.isFatal_iff.not.2 hc
          rw [List.mem_singleton.1 he]
          exact Bool.eq_false_iff.2 hfatal
    · -- No complaint comes after the one that the input has ended.
      exact absurd (List.mem_of_head? hhead) hallowed.ended_not_mem

/-- Where nothing is passed after a report, the reports voice the complaints that stand at the next token. -/
theorem Standing.voices_all (h : Standing xs trace t cs)
    (hlast : ∀ es fs, trace.reverse = es ++ fs → reports es ≠ [] → passes fs = []) :
    List.Forall₂ (fun d c => t ∈ xs ∧ d.Voices c t) (reports trace.reverse) cs.reverse := by
  have hbefore {e : Event} {es : List Event} (h : ∀ fs gs, (e :: es).reverse = fs ++ gs → reports fs ≠ [] → passes gs = []) :
      ∀ fs gs, es.reverse = fs ++ gs → reports fs ≠ [] → passes gs = [] := by
    intro fs gs hes hfs
    have hgs := h fs (gs ++ [e]) (by rw [List.reverse_cons, hes, List.append_assoc]) hfs
    rw [passes_append] at hgs
    exact (List.append_eq_nil_iff.1 hgs).1
  induction h with
  | start t => exact .nil
  | @pass es t cs e t' _ _ he ih =>
    have hnone : e.reported? = none := by cases e <;> first | rfl | cases he
    have hquiet : reports es.reverse = [] := by
      by_contra hne
      have hpassed := hlast es.reverse [e] List.reverse_cons hne
      rw [passes_cons, he] at hpassed
      cases hpassed
    rw [reports_reverse_cons, hnone, hquiet]
    exact .nil
  | @silent es t cs e _ _ hreport ih =>
    rw [reports_reverse_cons, hreport, Option.toList_none, List.append_nil]
    exact ih (hbefore hlast)
  | @report es t cs d c _ hmem hd _ ih =>
    rw [reports_reverse_cons, List.reverse_cons]
    exact List.rel_append (ih (hbefore hlast)) (.cons ⟨hmem, hd⟩ .nil)

end Parser

/-! ## Whole parses -/

open QuillFrontEnd.Parser

/-- The complaints of a whole parse: all were allowed where they were voiced, and the last is that the input has ended exactly if
the parse gave up. -/
theorem standing_parse (ts : TokenList) :
    ∃ trace last t cs, (parse ts).trace = .shift last :: trace ∧ Standing ts.toList trace t cs ∧
      ((parse ts).verdict = .matched ∧ afterProgram.Covers cs t.kind ∨
        (parse ts).verdict = .outOfInput ∧ closed.Covers cs t.kind) := by
  have hinitial : Stands ts.toList .fresh (.initial ts) :=
    ⟨List.Subset.refl _, [], .start _, Outlook.covers_fresh _⟩
  obtain ⟨es, hr, hends⟩ := leads_programSteps {} ts.toList _ ((State.ready_initial ts).attempt (.rule .start))
    (hinitial.attempt (.rule .start))
  obtain ⟨hstate, hverdict, -⟩ := program_eq .standard (.initial ts)
  have htrace : (parse ts).trace = (program .standard (.initial ts)).state.trace := rfl
  have hverdict' : (parse ts).verdict = (program .standard (.initial ts)).verdict := rfl
  rw [htrace, hstate, hverdict', hverdict]
  generalize sequence (programSteps .standard) {} ((State.initial ts).attempt (.rule .start)) = o at hr hends
  cases hv : o.verdict with
  | matched =>
    obtain ⟨cs, hcs, hc⟩ := (hends.matched hv).covered
    exact ⟨_, _, _, cs, rfl, hcs, .inl ⟨rfl, hc⟩⟩
  | mismatched =>
    obtain ⟨cs, -, e, he, -⟩ := (hends.mismatched hv).covered
    exact absurd he List.not_mem_nil
  | outOfInput =>
    obtain ⟨cs, hcs, hc⟩ := (hends.outOfInput hv).covered
    exact ⟨_, _, _, cs, rfl, hcs, .inr ⟨rfl, hc⟩⟩
  | stalled => exact absurd hv hr.ne_stalled

theorem TokenList.eq_sentinel {ts : TokenList} {t : Token} (ht : t ∈ ts.toList) (hend : t.isEnd = true) : t = ts.sentinel := by
  rcases List.mem_append.1 ht with ht | ht
  · rw [ts.body_isEnd t ht] at hend
    cases hend
  · exact List.mem_singleton.1 ht

/-- The reports of a parse are those of its trace before the sentinel is taken. -/
theorem diagnostics_eq_reports {ts : TokenList} {trace : List Event} {last : Token}
    (h : (parse ts).trace = .shift last :: trace) : (parse ts).diagnostics = reports trace.reverse := by
  change reports (parse ts).trace.reverse = _
  rw [h, reports_reverse_cons]
  exact List.append_nil _

/-- A parse is fatal exactly if it gave up, and then its only fatal report is the last one, at the sentinel. -/
theorem fatal_parse (ts : TokenList) :
    ((parse ts).verdict = .matched ∧ ∀ d ∈ (parse ts).diagnostics, d.isFatal = false) ∨
      ((parse ts).verdict = .outOfInput ∧ ∃ front d, (parse ts).diagnostics = front ++ [d] ∧
        (∀ e ∈ front, e.isFatal = false) ∧ d.Voices .ended ts.sentinel) := by
  obtain ⟨trace, last, t, cs, htrace, hcs, hcases⟩ := standing_parse ts
  rw [diagnostics_eq_reports htrace]
  rcases hcases with ⟨hv, e, he, rfl, -⟩ | ⟨hv, e, he, rfl, -⟩
  · have hhead : ∀ e ∈ afterProgram, e.1.head? ≠ some .ended := by decide
    rcases hcs.fatal_last with ⟨-, hall⟩ | ⟨hended, -⟩
    · exact .inl ⟨hv, hall⟩
    · exact absurd hended (hhead e he)
  · have hhead : ∀ e ∈ closed, e.1.head? = some .ended := by decide
    rcases hcs.fatal_last with ⟨hended, -⟩ | ⟨-, hkind, hmem, hlast⟩
    · exact absurd (hhead e he) hended
    · rw [TokenList.eq_sentinel hmem (by rw [Token.isEnd, hkind]; rfl)] at hlast
      exact .inr ⟨hv, hlast⟩

/-- Every report of a parse voices a complaint at a token. -/
theorem voices_parse (ts : TokenList) : ∀ d ∈ (parse ts).diagnostics, ∃ c, ∃ t ∈ ts.toList, d.Voices c t := by
  obtain ⟨trace, last, t, cs, htrace, hcs, -⟩ := standing_parse ts
  rw [diagnostics_eq_reports htrace]
  exact hcs.voices

/-- Of two reports of a parse the second is at a later token, or is in a cascade with the first. -/
theorem cascading_parse (ts : TokenList) :
    (parse ts).reportedAt.Pairwise fun p q => p.1 < q.1 ∨ p.1 = q.1 ∧ Cascading ts.toList p.2 q.2 := by
  obtain ⟨trace, last, t, cs, htrace, hcs, -⟩ := standing_parse ts
  have hplaces : (parse ts).reportedAt = placesOf Event.reported? 0 trace.reverse := by
    rw [ParseOutput.reportedAt, htrace, placesOf_reverse_cons]
    exact List.append_nil _
  rw [hplaces]
  exact hcs.cascading.1

end QuillFrontEnd
