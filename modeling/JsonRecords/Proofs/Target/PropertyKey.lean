import JsonRecords.Proofs.Target.TypeScript

/-!
# Property keys stand for names

A property key is the name itself if that is an identifier, and the quoted name otherwise.
A quoted name is read as that name in JSON, stands on one line, and ends at the first
quote that no backslash escapes (`afterQuote_flatMap_quotedChar`). Either way the name is
read off the key, so properties with different names have different keys.
-/

namespace JsonRecords

namespace TypeScript

open Encode Source

/-- What follows the first quote of a text that no backslash escapes. -/
def afterQuote : (escaped : Bool) → List Char → Option (List Char)
  | _, [] => none
  | true, _ :: cs => afterQuote false cs
  | false, c :: cs => if c = '"' then some cs else afterQuote (c == '\\') cs

theorem afterQuote_escaped (e : Char) (cs : List Char) :
    afterQuote false ('\\' :: e :: cs) = afterQuote false cs := rfl

theorem afterQuote_plain {c : Char} (hquote : c ≠ '"') (hback : c ≠ '\\') (cs : List Char) :
    afterQuote false (c :: cs) = afterQuote false cs := by
  rw [afterQuote, if_neg hquote, beq_eq_false_iff_ne.mpr hback]

theorem afterQuote_quotedChar (c : Char) (cs : List Char) :
    afterQuote false (quotedChar c ++ cs) = afterQuote false cs := by
  have hdigit : ∀ n : Fin 0x20, (hexDigit (n / 16) ≠ '"' ∧ hexDigit (n / 16) ≠ '\\') ∧
      hexDigit (n % 16) ≠ '"' ∧ hexDigit (n % 16) ≠ '\\' := by decide
  rw [quotedChar]
  iterate 7
    split
    · exact afterQuote_escaped _ cs
  split
  · next h =>
    obtain ⟨hhigh, hlow⟩ := hdigit ⟨c.toNat, h⟩
    simp only [List.cons_append, List.nil_append, afterQuote_escaped]
    rw [afterQuote_plain (by decide) (by decide), afterQuote_plain (by decide) (by decide),
      afterQuote_plain hhigh.1 hhigh.2, afterQuote_plain hlow.1 hlow.2]
  · next hquote hback _ _ _ _ _ _ => exact afterQuote_plain hquote hback cs

theorem afterQuote_flatMap_quotedChar (cs rest : List Char) :
    afterQuote false (cs.flatMap quotedChar ++ '"' :: rest) = some rest := by
  induction cs with
  | nil => rfl
  | cons c cs ih => rw [List.flatMap_cons, List.append_assoc, afterQuote_quotedChar, ih]

theorem propertyKey_injective : Function.Injective propertyKey := by
  intro a b h
  have ha := readKey_propertyKey a (l := ": ") (by decide)
  rw [h, readKey_propertyKey b (by decide)] at ha
  exact (Prod.mk.inj (Option.some.inj ha)).1.symm

/-- A property key is its name, an identifier, or it stands between quotes, is read as its
name in JSON, and holds no line feed, no carriage return and no quote that is not escaped.
So among the properties of an interface, each on a line with its key, no two with
different names have the same key. -/
theorem propertyKey_denotes :
    (∀ name, (isIdentifier name = true ∧ propertyKey name = name) ∨
      (isIdentifier name = false ∧
        (∀ levels, Json.decode levels (Utf8.ofString (propertyKey name)) = .ok (.string name)) ∧
        ∃ inside, propertyKey name = String.ofList ('"' :: inside ++ ['"']) ∧
          '\n' ∉ inside ∧ '\r' ∉ inside ∧
          ∀ rest, afterQuote false (inside ++ '"' :: rest) = some rest)) ∧
    ∀ rs : List RecordDecl,
      (rs ≠ [] →
        render rs ++ "\n" = unlines (headerLines ++ (rs.map declared).flatMap printRecord)) ∧
      ∀ r ∈ rs,
        (∀ f ∈ r.fields, printField (declaredField f) =
          ["  " ++ (propertyKey f.name ++ (": " ++ (f.typeExpr ++ ";")))]) ∧
        ∀ f ∈ r.fields, ∀ g ∈ r.fields, f.name ≠ g.name →
          propertyKey f.name ≠ propertyKey g.name := by
  refine ⟨fun name => ?_, fun rs => ⟨render_eq_unlines, fun r _ => ⟨fun _ _ => rfl, ?_⟩⟩⟩
  · by_cases h : isIdentifier name = true
    · exact .inl ⟨h, if_pos h⟩
    · have hkey : propertyKey name = quoted name := if_neg h
      rw [hkey]
      exact .inr ⟨by simpa using h, (Json.decode_quoted · name), _, rfl,
        Lexeme.not_mem_flatMap_quotedChar (by decide) name.toList,
        Lexeme.not_mem_flatMap_quotedChar (by decide) name.toList,
        afterQuote_flatMap_quotedChar name.toList⟩
  · exact fun f _ g _ hne => propertyKey_injective.ne hne

end TypeScript

end JsonRecords
