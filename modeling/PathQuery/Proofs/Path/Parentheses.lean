import PathQuery.Proofs.Filter.Parentheses
import PathQuery.Proofs.Path.Grammar
import PathQuery.Proofs.Path.Partial

/-!
# Canonical texts without a pair of parentheses

No pair of parentheses around an operand can be left out of a canonical text: what is left is the
text of another filter, with fewer parentheses.

* `Path.filterText`           the path of one filter, with the filter in parentheses;
* `Path.Derives.unique`       tokens derive one row of steps at most;
* `Path.parentheses_needed`   the parentheses are needed.
-/

namespace PathQuery.Path
open Token

/-- the text of a path of one filter; these parentheses belong to every filter -/
def filterText (cs : List Char) : String :=
  String.ofList ('$' :: '[' :: '?' :: '(' :: cs ++ [')', ']'])

def filterKinds (ks : List Kind) : List Kind :=
  .openBracket :: .question :: .openParen :: ks ++ [.closeParen, .closeBracket]

theorem text_filter (f : Filter) : (ofSteps [.root, .filter f]).text = filterText f.chars := by
  simp [text, chars, filterText, ofSteps, steps, Step.chars]

theorem lex_filterText {cs : List Char} {ks : List Kind} (h : Filter.Wording cs ks) :
    ∃ tokens : List Token, tokens.map Token.kind = .root :: filterKinds ks ++ [.eof] ∧
      lex (filterText cs) = .ok tokens := by
  have hclose := (spells_punctuation (c := ')') rfl _).append (spells_punctuation (c := ']') rfl [])
  have hfilter := (h.spells (closes_cons (c := ')') (by decide) [']'])).append hclose
  have hopen {cs rest : List Char} {ks : List Kind} (h : Spells cs rest ks) :=
    (spells_punctuation (c := '[') rfl _).append
      ((spells_punctuation (c := '?') rfl _).append ((spells_punctuation (c := '(') rfl _).append h))
  have hall := (spells_root (breaks_cons (c := '[') (by decide) _)).append (hopen hfilter)
  have htext : (filterText cs).toList = '$' :: '[' :: '?' :: '(' :: cs ++ [')', ']'] :=
    String.toList_ofList
  unfold lex
  rw [htext]
  exact hall.lexFrom_eq 0

/-! ## reading -/

section
variable {o : ParseOptions} {text : String} {tokens : List Token} {ks : List Kind} {p : Path}

theorem Derives.unique {steps steps' : List Step} (hend : Kind.eof ∉ ks) (h : Derives ks steps)
    (h' : Derives ks steps') : steps = steps' := by
  have htokens : ((ks ++ [Kind.eof]).map fun k => (⟨k, 0⟩ : Token)).map Token.kind
      = ks ++ [.eof] := by
    simp [Function.comp_def]
  have hread {steps : List Step} (h : Derives ks steps) :=
    (readTokens_iff (b := ⟨ks.length, 0⟩) hend (Nat.le_refl _) htokens).mpr h
  exact (hread h).2.symm.trans (hread h').2

/-- whatever is read behind a `$`, the grammar derives, at any limit on the levels of filters -/
theorem derives_of_parse (hlex : lex text = .ok tokens)
    (htokens : tokens.map Token.kind = .root :: ks ++ [.eof]) (hend : Kind.eof ∉ ks)
    (h : parse o text = ⟨some p, none⟩) : Derives (.root :: ks) p.steps := by
  have hread := readText_of_parse h
  rw [readText_of_lex hlex] at hread
  obtain ⟨rfl, herror⟩ := Prod.mk.inj hread
  rw [List.cons_append, List.map_eq_cons_iff] at htokens
  obtain ⟨t, rest, rfl, ht, hrest⟩ := htokens
  rw [readTokens_root ht] at herror ⊢
  have hlen := congrArg List.length hrest
  rw [List.length_map, List.length_append] at hlen
  refine .root (Step.deriveAll_of_readRest hrest hend ?_ (Prod.ext rfl herror))
  rw [List.length_cons]
  omega

/-- what the grammar derives is read where there is as much room for filters as there are tokens -/
theorem parse_of_derives {steps : List Step} (hlex : lex text = .ok tokens)
    (htokens : tokens.map Token.kind = ks ++ [.eof]) (hend : Kind.eof ∉ ks)
    (h : Derives ks steps) (hvalidate : o.validate = false)
    (hdepth : tokens.length ≤ o.maxFilterDepth) :
    ∃ p, parse o text = ⟨some p, none⟩ ∧ p.steps = steps := by
  have hlen := congrArg List.length htokens
  rw [List.length_map, List.length_append] at hlen
  obtain ⟨herror, hsteps⟩ := (readTokens_iff (b := ⟨o.maxFilterDepth, text.length⟩) hend
    (by dsimp only; omega) htokens).mpr h
  refine ⟨⟨_⟩, parse_unchecked hvalidate ?_, hsteps⟩
  rw [readText_of_lex hlex]
  exact Prod.ext rfl herror

end

/-! ## the parentheses -/

theorem derives_filterKinds {ks : List Kind} {g : Filter} (h : Filter.Derives .or ks g) :
    Derives (.root :: filterKinds ks) [.root, .filter g] := by
  have hbody : Step.Body (.question :: (.openParen :: ks ++ [.closeParen])) (.filter g) :=
    .filter (Filter.Derives.to_or (.group h))
  have hall := Derives.root (.cons (.bracket hbody) .nil)
  simpa [filterKinds] using hall

theorem eof_not_mem_filterKinds {t : Filter.Tier} {ks : List Kind} {g : Filter}
    (h : Filter.Derives t ks g) : Kind.eof ∉ filterKinds ks := by
  simp [filterKinds, h.eof_not_mem]

/-- **The parentheses around operands are needed.** Without one pair of them, wherever it stands,
the canonical text of a filter is that of another filter: so it is read where there is room for it,
and it is read as nothing else under any options. -/
theorem parentheses_needed {f part : Filter} {before after : List Char}
    (hf : f.isPrintable = true) (h : f.Grouped before part after) :
    (ofSteps [.root, .filter f]).text = filterText (before ++ '(' :: part.chars ++ ')' :: after) ∧
      ∃ g, f ≠ g ∧ f.same g = false ∧
        (∀ o p, parse o (filterText (before ++ part.chars ++ after)) = ⟨some p, none⟩ →
          p.steps = [.root, .filter g]) ∧
        ∃ tokens, lex (filterText (before ++ part.chars ++ after)) = .ok tokens ∧
          ∀ o : ParseOptions, o.validate = false → tokens.length ≤ o.maxFilterDepth →
            ∃ p, parse o (filterText (before ++ part.chars ++ after)) = ⟨some p, none⟩ := by
  obtain ⟨ks, hwording, hcount⟩ := h.bare hf
  obtain ⟨g, hg⟩ := hwording.derivable
  have hfewer : Filter.parentheses g.kinds < Filter.parentheses f.kinds := by
    have hle := (Filter.parentheses_le_needed _ g).trans hg.fewest
    omega
  have hdiffer : f.same g = false := by
    rw [Bool.eq_false_iff]
    intro hsame
    exact hfewer.ne (Filter.parentheses_of_same hsame).2.symm
  obtain ⟨tokens, htokens, hlex⟩ := lex_filterText hwording
  have hderives := derives_filterKinds hg
  have hend := eof_not_mem_filterKinds hg
  have hend' : Kind.eof ∉ .root :: filterKinds ks := List.not_mem_cons_of_ne_of_not_mem nofun hend
  refine ⟨by rw [text_filter, h.chars_eq], g, ?_, hdiffer, fun o p hparse => ?_, tokens, hlex,
    fun o hvalidate hdepth => ?_⟩
  · rintro rfl
    exact hfewer.ne rfl
  · exact (derives_of_parse hlex htokens hend hparse).unique hend' hderives
  · obtain ⟨p, hp, -⟩ := parse_of_derives hlex htokens hend' hderives hvalidate hdepth
    exact ⟨p, hp⟩

/-- `@.a || @.b` -/
def eitherName : Filter := .binary (.known .or) (.reference ["a"]) (.reference ["b"])

/-- a disjunction in a conjunction that is negated in a call -/
def nestedGroups : Filter :=
  .call "f" [.reference [], .negation (.binary (.known .and) eitherName (.literal .null))]

/-- without the parentheses around the disjunction, the conjunction takes its right operand -/
theorem parentheses_needed_nestedGroups :
    (ofSteps [.root, .filter nestedGroups]).text = "$[?(f(@, !((@.a || @.b) && null)))]" ∧
      ∃ g, nestedGroups ≠ g ∧ nestedGroups.same g = false ∧
        (∀ o p, parse o "$[?(f(@, !(@.a || @.b && null)))]" = ⟨some p, none⟩ →
          p.steps = [.root, .filter g]) ∧
        ∃ p, parse { validate := false } "$[?(f(@, !(@.a || @.b && null)))]" = ⟨some p, none⟩ := by
  have hgrouped : nestedGroups.Grouped "f(@, !(".toList eitherName " && null))".toList :=
    .inside (.argument "f" [.reference []] _ []) (.inside (.negated _)
      (.here (.left (.known .and) eitherName (.literal .null))))
  have hbare : filterText ("f(@, !(".toList ++ eitherName.chars ++ " && null))".toList)
      = "$[?(f(@, !(@.a || @.b && null)))]" := by decide +kernel
  have hlength : ((lex "$[?(f(@, !(@.a || @.b && null)))]").toOption.any
      fun tokens => tokens.length ≤ 64) = true := by decide +kernel
  obtain ⟨htext, g, hne, hsame, hread, tokens, hlex, hparse⟩ :=
    parentheses_needed (by decide +kernel) hgrouped
  rw [hbare] at hread hlex hparse
  rw [hlex] at hlength
  exact ⟨htext, g, hne, hsame, hread, hparse { validate := false } rfl (of_decide_eq_true hlength)⟩

end PathQuery.Path
