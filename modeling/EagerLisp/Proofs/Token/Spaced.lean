import EagerLisp.Proofs.Text.Stretch
import EagerLisp.Proofs.Token.Solid

/-! Tokens written out again. The texts of the tokens of a text with a space between them have the
same tokens: the text of an atom is cut as that atom, and only the last atom can leave a quoted
stretch open, which the space behind it would otherwise become part of. -/
namespace EagerLisp.Token

/-- The texts of the tokens with a space between them. -/
def spaced (tokens : List Token) : String :=
  " ".intercalate (tokens.map fun token => token.lexeme.text)

variable {source : String} {token : Token}

private theorem lexemes_text (member : token ∈ ofString source) :
    lexemes token.lexeme.text.toList = [token.lexeme] := by
  have nothing : lexemes [] = [] := Cuts.empty.lexemes_eq
  cases same : token.lexeme with
  | openParen => exact (lexemes_open []).trans (by rw [nothing])
  | closeParen => exact (lexemes_close []).trans (by rw [nothing])
  | atom text => simpa [Lexeme.text] using (isAtom_of_mem member same).lexemes_eq

private theorem closed_text (member : token ∈ (ofString source).dropLast) :
    token.lexeme.text.toList.foldl Region.after .code = .code := by
  cases same : token.lexeme with
  | openParen => rfl
  | closeParen => rfl
  | atom text => exact (isClosedAtom_of_mem_dropLast member same).closed

theorem ofString_atom {text : String} (atom : IsAtom text.toList) :
    ofString text = [⟨.atom text, ⟨0, text.utf8ByteSize⟩⟩] := by
  rw [ofString, atom.scan_eq, byteLength_eq_utf8ByteSize, String.ofList_toList]

/-- Nothing comes behind an atom with an open quoted stretch. -/
theorem eq_nil_of_endsInside {front back : List Token} {text : String}
    (split : ofString source = front ++ token :: back) (same : token.lexeme = .atom text)
    (unclosed : EndsInside '"' '"' text.toList) : back = [] := by
  by_contra more
  have member : token ∈ (ofString source).dropLast := by
    rw [split, List.dropLast_append_of_ne_nil (by simp), List.dropLast_cons_of_ne_nil more]
    simp
  have quoted : Region.behind text.toList = .quoted := Region.behind_eq_quoted.mpr unclosed
  have closed : Region.behind text.toList = .code :=
    (isClosedAtom_of_mem_dropLast member same).closed
  rw [closed] at quoted
  cases quoted

/-- The tokens of a text, written with single spaces between them, are found again, with the same
kinds and the same texts. The text of an atom by itself has that atom for its only token, which
fills it, and an atom that ends inside an open quoted stretch is the last token. -/
theorem spacing_keeps_tokens (source : String) :
    (ofString (spaced (ofString source))).map lexeme = (ofString source).map lexeme ∧
    (∀ token ∈ ofString source, ∀ text, token.lexeme = .atom text →
      ofString text = [⟨.atom text, ⟨0, text.utf8ByteSize⟩⟩]) ∧
    ∀ front token back text, ofString source = front ++ token :: back →
      token.lexeme = .atom text → EndsInside '"' '"' text.toList → back = [] := by
  refine ⟨?_, fun token member text same => ?_, fun front token back text split same unclosed => ?_⟩
  · have again : lexemes (spaced (ofString source)).toList =
        (ofString source).flatMap fun token => [token.lexeme] :=
      lexemes_intercalate (fun _ member => lexemes_text member) fun _ member => closed_text member
    exact again.trans List.map_eq_flatMap.symm
  · exact ofString_atom (isAtom_of_mem member same)
  · exact eq_nil_of_endsInside split same unclosed

/-- A comment inside an atom, a quoted stretch with a semicolon and an open one at the end. -/
theorem spacing_keeps_tokens_around_comment :
    let source := "(f p;note\nq)\"x ;\"y \"open ("
    let tokens : List Token := [⟨.openParen, ⟨0, 1⟩⟩, ⟨.atom "f", ⟨1, 2⟩⟩, ⟨.atom "pq", ⟨3, 11⟩⟩,
      ⟨.closeParen, ⟨11, 12⟩⟩, ⟨.atom "\"x ;\"y", ⟨12, 18⟩⟩, ⟨.atom "\"open (", ⟨19, 26⟩⟩]
    ofString source = tokens ∧ spaced tokens = "( f pq ) \"x ;\"y \"open (" ∧
      (ofString "( f pq ) \"x ;\"y \"open (").map lexeme = tokens.map lexeme ∧
      ofString "pq" = [⟨.atom "pq", ⟨0, 2⟩⟩] ∧
      EndsInside '"' '"' "\"open (".toList := by
  intro source tokens
  have cut : ofString source = tokens := by
    rw [ofString, Pass.scan_eq_foldl_step]
    decide +kernel
  have written : spaced tokens = "( f pq ) \"x ;\"y \"open (" := by decide +kernel
  obtain ⟨again, alone, _⟩ := spacing_keeps_tokens source
  rw [cut, written] at again
  rw [cut] at alone
  have unclosed : EndsInside '"' '"' "\"open (".toList :=
    ⟨[], "open (".toList, by decide, .nil, by decide⟩
  exact ⟨cut, written, again, alone ⟨.atom "pq", ⟨3, 11⟩⟩ (by simp [tokens]) "pq" rfl, unclosed⟩

end EagerLisp.Token
