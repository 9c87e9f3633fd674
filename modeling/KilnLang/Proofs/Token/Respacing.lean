import KilnLang.Proofs.Syntax.Printing
import KilnLang.Proofs.Token.Insertion
import KilnLang.Proofs.Token.Places

/-!
# Spacing of tokens

Every token is decided by its own text.

**Theorem (`lex_respaced`).** The texts of the tokens of a text, joined with single spaces, are read
as the same kinds and texts again, all on one line; and the text of a token alone is read as that
token and nothing else.

A token was read where no gap starts, so its text is read as the token wherever a space or nothing
comes next (`Token.Lexed.legible`).
-/

namespace KilnLang

/-- What a token is, apart from its place. -/
def Token.content (t : Token) : TokenKind × String := (t.kind, t.text)

namespace Lexer

/-- Texts of tokens with spaces between them are read as the tokens. -/
theorem scanFrom_respaced {tokens : List Token} (h : ∀ t ∈ tokens, t.Lexed) {lead : List Char}
    (hlead : ∀ c ∈ lead, c = ' ') (file pos : Nat) :
    ∃ tokens', scanFrom file pos (spaced lead (tokens.map (·.text))) = ⟨tokens', none⟩ ∧
      tokens'.map (·.content) = tokens.map (·.content) ∧ ∀ t ∈ tokens', t.fresh = false := by
  induction tokens generalizing lead pos with
  | nil => exact ⟨[], scanFrom_nil file pos, rfl, nofun⟩
  | cons t tokens ih =>
    obtain ⟨ht, hmore⟩ := List.forall_mem_cons.mp h
    have hspace : ∀ c ∈ [' '], c = ' ' := fun _ => List.mem_singleton.mp
    obtain ⟨tokens', hscan, hcontents, hfresh⟩ :=
      ih hmore hspace (pos + utf8Width lead + utf8Width t.text.toList)
    have hfirst := scanFrom_legible ht.legible hlead (spaced_space (tokens.map (·.text))) file pos
    rw [hscan] at hfirst
    refine ⟨_, hfirst, ?_, List.forall_mem_cons.mpr ⟨rfl, hfresh⟩⟩
    rw [List.map_cons, List.map_cons, hcontents, Token.content, String.ofList_toList]
    rfl

end Lexer

/-- **Tokens are stable under spacing.** Joined with single spaces, the texts of tokens are read as
the same kinds and texts. The text of a token alone is read as this token. -/
theorem lex_respaced {file : Nat} {text : String} {tokens : List Token}
    (h : Token.lex file text = .ok tokens) :
    (∃ tokens', Token.lex file (" ".intercalate (tokens.map (·.text))) = .ok tokens' ∧
      tokens'.map (·.content) = tokens.map (·.content) ∧ ∀ t ∈ tokens', t.fresh = false) ∧
    ∀ t ∈ tokens, Token.lex file t.text =
      .ok [⟨t.kind, t.text, ⟨file, 0, t.text.utf8ByteSize⟩, false⟩] := by
  have hlexed : ∀ t ∈ tokens, t.Lexed := fun t ht => Lexer.lexed_of_mem_lex h ht
  have hnone : ∀ c ∈ ([] : List Char), c = ' ' := nofun
  constructor
  · obtain ⟨tokens', hscan, hcontents⟩ := Lexer.scanFrom_respaced hlexed hnone file 0
    rw [← Lexer.toList_intercalate_space] at hscan
    exact ⟨tokens', Token.lex_eq_ok.mpr hscan, hcontents⟩
  · intro t ht
    have hscan := Lexer.scanFrom_legible (hlexed t ht).legible hnone .nil file 0
    rw [Lexer.scanFrom_nil, String.ofList_toList, List.nil_append, List.append_nil, utf8Width_nil,
      utf8Width_toList, Nat.add_zero, Nat.zero_add] at hscan
    exact Token.lex_eq_ok.mpr hscan

/-- A text in which some tokens touch, with the kinds of its tokens once there are spaces. -/
theorem touching_tokens_respaced : ∃ tokens tokens',
    Token.lex 0 "f(0x1f.e<='\\x41')//" = .ok tokens ∧
      Token.lex 0 (" ".intercalate (tokens.map (·.text))) = .ok tokens' ∧
      tokens.map (·.kind) = [.ident, .lparen, .intLiteral, .dot, .ident, .lessEq, .charLiteral,
        .rparen] ∧ tokens'.map (·.content) = tokens.map (·.content) := by
  have hok : ((Token.lex 0 "f(0x1f.e<='\\x41')//").toOption.any fun tokens =>
      tokens.map (·.kind) = [.ident, .lparen, .intLiteral, .dot, .ident, .lessEq, .charLiteral,
        .rparen]) = true := by
    rw [Token.lex_ofList]
    decide +kernel
  obtain ⟨tokens, hlex, hkinds⟩ := Token.exists_lexed hok
  obtain ⟨⟨tokens', hlex', hcontents, -⟩, -⟩ := lex_respaced hlex
  exact ⟨tokens, tokens', hlex, hlex', of_decide_eq_true hkinds, hcontents⟩

end KilnLang
