import QuillFrontEnd.Grammar.Rule

/-!
# Where to go on after an error

After an error the parser drops tokens until it can go on. A rule with a policy does that itself: it goes on at one of its stop
tokens, or after its terminator. An error in any other rule is handed to the nearest rule around it that has a policy. The end of
the input is never a stop token: there is nothing to go on with.
-/

namespace QuillFrontEnd

/-- Where a rule goes on after an error. -/
structure ResyncPolicy where
  /-- The kinds at which the rule ends without taking the token. -/
  stop : KindSet
  /-- The kind that closes a phrase of the rule, which is taken into the phrase. -/
  terminator : Option TokenKind
deriving DecidableEq

/-- The kinds that start a declaration, or the block after the declarations. -/
def declarationStarts : KindSet := .ofList [.var, .function, .main, .leftBrace]

/-- The policy of a rule that goes on by itself after an error. -/
def Rule.resyncPolicy? : Rule → Option ResyncPolicy
  | .varDecl => some ⟨declarationStarts, some .semicolon⟩
  | .paramList => some ⟨declarationStarts.insert .rightParen, none⟩
  | .functionDecls => some ⟨.ofList [.function, .main], none⟩
  | .block => some ⟨.ofList [.function, .main], some .rightBrace⟩
  | .statement => some ⟨.single .rightBrace, some .semicolon⟩
  | .start | .globalVars | .type | .basicType | .typeDim1 | .typeDim2 | .dimDecl | .functions | .localVars | .expression
  | .main => none

/-- The kinds at which a program goes on after an error in its header. -/
def headerRestarts : KindSet := declarationStarts

end QuillFrontEnd
