import Callable.Proofs.Reference.Grammar
import Callable.Proofs.TypeExpr.NormalForm

/-!
Readers and the grammar they read. A reader agrees with a set of derivations if what it reads
derives and if it reads what derives, as long as no barred token follows. A value that is read need
not be the one that the derivation denotes: the two have the same key, such as a normal form.
-/
namespace Callable.Reference

/-- What follows does not begin with one of the tokens. -/
def Avoids (barred after : List Token) : Prop := ∀ next, after.head? = some next → next ∉ barred

structure Agrees {α κ : Type} (key : α → κ) (barred : List Token) (run : List Lexeme → Outcome α)
    (Item : List Token → α → Prop) : Prop where
  sound : ∀ {input : List Lexeme} {a : α} {rest : List Lexeme}, run input = .ok (a, rest) →
    ∃ tokens b, input.map Lexeme.token = tokens ++ rest.map Lexeme.token ∧ Item tokens b ∧
      key a = key b
  complete : ∀ {input : List Lexeme} {tokens : List Token} {b : α} {after : List Token},
    Item tokens b → input.map Lexeme.token = tokens ++ after → Avoids barred after →
      ∃ a rest, run input = .ok (a, rest) ∧ rest.map Lexeme.token = after ∧ key a = key b

/-- No item is empty or begins like the end of a form. -/
def Opens {α : Type} (Item : List Token → α → Prop) : Prop :=
  ∀ tokens b, Item tokens b →
    ∃ first rest, tokens = first :: rest ∧ first ∉ [Token.closeBracket, .openParen]

theorem exists_cons_of_map_token {input : List Lexeme} {token : Token} {tokens : List Token}
    (h : input.map Lexeme.token = token :: tokens) :
    ∃ start rest, input = ⟨token, start⟩ :: rest ∧ rest.map Lexeme.token = tokens := by
  obtain ⟨⟨found, start⟩, rest, rfl, rfl, hrest⟩ := List.map_eq_cons_iff.mp h
  exact ⟨start, rest, rfl, hrest⟩

theorem Avoids.mono {barred fewer after : List Token} (h : Avoids barred after)
    (hsub : fewer ⊆ barred) : Avoids fewer after := by
  intro next hnext hmem
  exact h next hnext (hsub hmem)

theorem avoids_nil (barred : List Token) : Avoids barred [] := by
  intro next h
  cases h

theorem avoids_cons {barred : List Token} {next : Token} (h : next ∉ barred)
    (after : List Token) : Avoids barred (next :: after) := by
  rintro _ ⟨⟩
  exact h

theorem CommaList.opens {α : Type} {Item : List Token → α → Prop} {tokens : List Token}
    {as : List α} (h : CommaList Item tokens as) (hopens : Opens Item) :
    ∃ first rest, tokens = first :: rest ∧ first ∉ [Token.closeBracket, .openParen] := by
  cases h with
  | last h => exact hopens _ _ h
  | comma h =>
    obtain ⟨first, rest, rfl, hfirst⟩ := hopens _ _ h
    exact ⟨first, _, List.cons_append, hfirst⟩
  | more h _ =>
    obtain ⟨first, rest, rfl, hfirst⟩ := hopens _ _ h
    exact ⟨first, _, List.cons_append, hfirst⟩

namespace Reader

variable {α κ : Type} {key : α → κ} {barred : List Token} {item : Reader α}
  {Item : List Token → α → Prop}

theorem arguments_of_run {input after : List Lexeme} {a : α}
    (hrun : item.run input = .ok (a, after)) {more : List α} {rest : List Lexeme}
    (hmore : item.moreArguments after = .ok (more, rest)) :
    item.arguments input = .ok (a :: more, rest) := by
  rw [arguments, hrun]
  simp only [hmore]

/-- After a comma that does not end the list, more arguments are arguments. -/
theorem moreArguments_comma {start : Nat} {input : List Lexeme}
    (h : Avoids [.closeBracket] (input.map Lexeme.token)) :
    item.moreArguments (⟨.comma, start⟩ :: input) = item.arguments input := by
  rw [moreArguments, arguments]
  · split
    · rename_i hrun
      simp only [hrun]
    · rename_i hrun
      simp only [hrun]
  · rintro close rest rfl
    exact h _ rfl List.mem_cons_self

/-- Arguments that follow a first one complete it to a comma list. -/
theorem moreArguments_sound (hitem : Agrees key barred item.run Item) {input rest : List Lexeme}
    {more : List α} (h : item.moreArguments input = .ok (more, rest)) :
    ∃ tokens bs, input.map Lexeme.token = tokens ++ .closeBracket :: rest.map Lexeme.token ∧
      more.map key = bs.map key ∧
      ∀ first b, Item first b → CommaList Item (first ++ tokens) (b :: bs) := by
  fun_induction moreArguments item input generalizing more rest with
  | case1 _ rest =>
    cases h
    refine ⟨[], [], rfl, rfl, fun first b hb => ?_⟩
    rw [List.append_nil]
    exact CommaList.last hb
  | case2 _ _ rest =>
    cases h
    exact ⟨[.comma], [], rfl, rfl, fun first b hb => CommaList.comma hb⟩
  | case3 => cases h
  | case4 => cases h
  | case5 _ _ _ a _ hrun _ more' rest'' hmore ih =>
    cases h
    obtain ⟨tokens, bs, htokens, hkeys, hlist⟩ := ih hmore
    obtain ⟨front, b, hfront, hb, hkey⟩ := hitem.sound hrun
    refine ⟨.comma :: (front ++ tokens), b :: bs, ?_, ?_, ?_⟩
    · rw [List.map_cons, hfront, htokens, List.cons_append, List.append_assoc]
    · rw [List.map_cons, List.map_cons, hkey, hkeys]
    · exact fun first c hc => CommaList.more hc (hlist front b hb)
  | case6 => cases h

theorem arguments_sound (hitem : Agrees key barred item.run Item) {input rest : List Lexeme}
    {found : List α} (h : item.arguments input = .ok (found, rest)) :
    ∃ tokens bs, input.map Lexeme.token = tokens ++ .closeBracket :: rest.map Lexeme.token ∧
      CommaList Item tokens bs ∧ found.map key = bs.map key := by
  obtain ⟨a, after, more, hrun, hmore, rfl⟩ := arguments_eq_ok h
  obtain ⟨front, b, hfront, hb, hkey⟩ := hitem.sound hrun
  obtain ⟨tokens, bs, htokens, hkeys, hlist⟩ := moreArguments_sound hitem hmore
  refine ⟨front ++ tokens, b :: bs, ?_, hlist front b hb, ?_⟩
  · rw [hfront, htokens, List.append_assoc]
  · rw [List.map_cons, List.map_cons, hkey, hkeys]

theorem arguments_complete (hitem : Agrees key barred item.run Item) (hopens : Opens Item)
    (hcomma : Token.comma ∉ barred) (hclose : Token.closeBracket ∉ barred)
    {input : List Lexeme} {tokens after : List Token} {bs : List α}
    (h : CommaList Item tokens bs)
    (hinput : input.map Lexeme.token = tokens ++ .closeBracket :: after) :
    ∃ as rest, item.arguments input = .ok (as, rest) ∧ rest.map Lexeme.token = after ∧
      as.map key = bs.map key := by
  induction h generalizing input with
  | last hb =>
    obtain ⟨a, rest, hrun, hrest, hkey⟩ := hitem.complete hb hinput (avoids_cons hclose after)
    obtain ⟨_, final, rfl, hfinal⟩ := exists_cons_of_map_token hrest
    exact ⟨[a], final, arguments_of_run hrun (by rw [moreArguments]), hfinal, by simp [hkey]⟩
  | comma hb =>
    rw [List.append_assoc] at hinput
    obtain ⟨a, rest, hrun, hrest, hkey⟩ := hitem.complete hb hinput (avoids_cons hcomma _)
    obtain ⟨_, close, rfl, hclosed⟩ := exists_cons_of_map_token hrest
    obtain ⟨_, final, rfl, hfinal⟩ := exists_cons_of_map_token hclosed
    exact ⟨[a], final, arguments_of_run hrun (by rw [moreArguments]), hfinal, by simp [hkey]⟩
  | @more tokens more b bs hb hbs ih =>
    rw [List.append_assoc, List.cons_append] at hinput
    obtain ⟨a, rest, hrun, hrest, hkey⟩ := hitem.complete hb hinput (avoids_cons hcomma _)
    obtain ⟨_, others, rfl, hothers⟩ := exists_cons_of_map_token hrest
    obtain ⟨as, final, hargs, hfinal, hkeys⟩ := ih hothers
    obtain ⟨first, tail, rfl, hfirst⟩ := hbs.opens hopens
    refine ⟨a :: as, final, arguments_of_run hrun ?_, hfinal, by simp [hkey, hkeys]⟩
    rw [moreArguments_comma, hargs]
    rw [hothers]
    refine avoids_cons ?_ _
    rw [List.mem_singleton]
    rintro rfl
    exact hfirst List.mem_cons_self

end Reader

theorem DerivesAlternatives.avoids_openBracket {scope : Scope} {depth : Nat}
    {tokens : List Token} {types : List TypeExpr}
    (h : DerivesAlternatives scope depth tokens types) (after : List Token) :
    Avoids [.openBracket] (tokens ++ after) := by
  cases h <;> exact avoids_cons (by simp) _

section Alternatives

variable {scope : Scope} {depth : Nat} {term : Reader TypeExpr}
  (hterm : Agrees TypeExpr.normalize [.openBracket] term.run (DerivesTerm scope depth))

theorem moreAlternatives_of_avoids (term : Reader TypeExpr) {input : List Lexeme}
    (h : Avoids [.pipe] (input.map Lexeme.token)) :
    term.moreAlternatives input = .ok ([], input) := by
  rw [Reader.moreAlternatives]
  rintro start rest rfl
  exact h _ rfl List.mem_cons_self

theorem moreAlternatives_pipe {start : Nat} {input after rest : List Lexeme} {a : TypeExpr}
    {more : List TypeExpr} (hrun : term.run input = .ok (a, after))
    (hmore : term.moreAlternatives after = .ok (more, rest)) :
    term.moreAlternatives (⟨.pipe, start⟩ :: input) = .ok (a :: more, rest) := by
  rw [Reader.moreAlternatives]
  split
  · rename_i hfail
    cases hfail.symm.trans hrun
  · rename_i hok
    cases hok.symm.trans hrun
    simp only [hmore]

include hterm

theorem moreAlternatives_sound {input rest : List Lexeme} {more : List TypeExpr}
    (h : term.moreAlternatives input = .ok (more, rest)) :
    more = [] ∧ rest = input ∨
      ∃ tokens types, input.map Lexeme.token = tokens ++ rest.map Lexeme.token ∧
        DerivesAlternatives scope depth tokens types ∧
        more.map TypeExpr.normalize = types.map TypeExpr.normalize := by
  fun_induction Reader.moreAlternatives term input generalizing more rest with
  | case1 => cases h
  | case2 => cases h
  | case3 _ _ a _ hrun _ more' rest'' hmore ih =>
    cases h
    obtain ⟨front, type, hfront, htype, hkey⟩ := hterm.sound hrun
    rcases ih hmore with ⟨rfl, rfl⟩ | ⟨tokens, types, htokens, htypes, hkeys⟩
    · exact Or.inr ⟨.pipe :: front, [type], by rw [List.map_cons, hfront, List.cons_append],
        DerivesAlternatives.last htype, by simp [hkey]⟩
    · refine Or.inr ⟨.pipe :: (front ++ tokens), type :: types, ?_,
        DerivesAlternatives.more htype htypes, by simp [hkey, hkeys]⟩
      rw [List.map_cons, hfront, htokens, List.cons_append, List.append_assoc]
  | case4 =>
    cases h
    exact Or.inl ⟨rfl, rfl⟩

theorem moreAlternatives_complete {input : List Lexeme} {tokens after : List Token}
    {types : List TypeExpr} (h : DerivesAlternatives scope depth tokens types)
    (hinput : input.map Lexeme.token = tokens ++ after)
    (hafter : Avoids [.openBracket, .pipe] after) :
    ∃ more rest, term.moreAlternatives input = .ok (more, rest) ∧
      rest.map Lexeme.token = after ∧
      more.map TypeExpr.normalize = types.map TypeExpr.normalize := by
  -- one of several relations defined together, so the recursion over it is written out
  match h with
  | .last htype =>
    obtain ⟨_, others, rfl, hothers⟩ := exists_cons_of_map_token hinput
    obtain ⟨a, rest, hrun, hrest, hkey⟩ :=
      hterm.complete htype hothers (hafter.mono (by simp))
    have hnone := moreAlternatives_of_avoids term (hrest ▸ hafter.mono (by simp))
    exact ⟨[a], rest, moreAlternatives_pipe hrun hnone, hrest, by simp [hkey]⟩
  | @DerivesAlternatives.more _ _ front tail _ _ htype htypes =>
    rw [List.cons_append, List.append_assoc] at hinput
    obtain ⟨_, others, rfl, hothers⟩ := exists_cons_of_map_token hinput
    obtain ⟨a, rest, hrun, hrest, hkey⟩ :=
      hterm.complete htype hothers (htypes.avoids_openBracket after)
    obtain ⟨more, final, hmore, hfinal, hkeys⟩ :=
      moreAlternatives_complete htypes hrest hafter
    exact ⟨a :: more, final, moreAlternatives_pipe hrun hmore, hfinal, by simp [hkey, hkeys]⟩

/-- If terms are read as they derive, then so are types. -/
theorem agrees_readAlternatives :
    Agrees TypeExpr.normalize [.openBracket, .pipe] (readAlternatives term)
      (DerivesType scope depth) where
  sound := by
    intro input type rest h
    obtain ⟨first, after, more, hrun, hmore, rfl⟩ := readAlternatives_eq_ok h
    obtain ⟨front, t, hfront, ht, hkey⟩ := hterm.sound hrun
    rcases moreAlternatives_sound hterm hmore with
      ⟨rfl, rfl⟩ | ⟨tokens, types, htokens, htypes, hkeys⟩
    · exact ⟨front, t, hfront, DerivesType.term ht, hkey⟩
    · have hne : more ≠ [] := by
        intro hnil
        subst hnil
        cases htypes <;> cases hkeys
      refine ⟨front ++ tokens, .union (t :: types), ?_, DerivesType.union ht htypes, ?_⟩
      · rw [hfront, htokens, List.append_assoc]
      · rw [if_neg hne]
        exact TypeExpr.normalize_union_congr (by simp [hkey, hkeys])
  complete := by
    intro input tokens type after h hinput hafter
    cases h with
    | term h =>
      obtain ⟨a, rest, hrun, hrest, hkey⟩ := hterm.complete h hinput (hafter.mono (by simp))
      have hnone := moreAlternatives_of_avoids term (hrest ▸ hafter.mono (by simp))
      refine ⟨a, rest, ?_, hrest, hkey⟩
      rw [readAlternatives, hrun]
      simp only [hnone]
    | union h hs =>
      rw [List.append_assoc] at hinput
      obtain ⟨a, rest, hrun, hrest, hkey⟩ :=
        hterm.complete h hinput (hs.avoids_openBracket after)
      obtain ⟨more, final, hmore, hfinal, hkeys⟩ := moreAlternatives_complete hterm hs hrest hafter
      refine ⟨.union (a :: more), final, ?_, hfinal, ?_⟩
      · rw [readAlternatives, hrun]
        simp only [hmore]
        cases more with
        | nil => cases hs <;> cases hkeys
        | cons => rfl
      · exact TypeExpr.normalize_union_congr (by simp [hkey, hkeys])

end Alternatives
end Callable.Reference
