import Callable.Docs.Normal
import Mathlib.Data.List.Chain

/-!
Squeezing descriptions. A character is dropped where it stands before some other one. Where the two never
meet nothing is dropped, and what is dropped in two parts of a text is dropped in the whole, unless they
meet where the parts are joined.
-/
namespace Callable.Docs

section DropBefore

variable {first second : Char}

theorem dropBefore_cons (c : Char) (rest : List Char) :
    dropBefore first second (c :: rest) =
      if c = first ∧ (dropBefore first second rest).head? = some second then
        dropBefore first second rest
      else c :: dropBefore first second rest := rfl

theorem dropBefore_eq_self {text : List Char}
    (h : text.IsChain fun c d => ¬ (c = first ∧ d = second)) :
    dropBefore first second text = text := by
  induction text with
  | nil => rfl
  | cons c rest ih =>
    obtain ⟨hc, hrest⟩ := List.isChain_cons.mp h
    rw [dropBefore_cons, ih hrest, if_neg]
    rintro ⟨rfl, hhead⟩
    exact hc second hhead ⟨rfl, rfl⟩

theorem dropBefore_of_first_not_mem {text : List Char} (h : first ∉ text) :
    dropBefore first second text = text :=
  dropBefore_eq_self <| List.Pairwise.isChain <|
    List.pairwise_of_forall_mem_list fun _ hc _ _ hpair => h (hpair.1 ▸ hc)

theorem dropBefore_of_second_not_mem {text : List Char} (h : second ∉ text) :
    dropBefore first second text = text :=
  dropBefore_eq_self <| List.Pairwise.isChain <|
    List.pairwise_of_forall_mem_list fun _ _ _ hd hpair => h (hpair.2 ▸ hd)

theorem dropBefore_ne_nil {text : List Char} (h : text ≠ []) :
    dropBefore first second text ≠ [] := by
  obtain ⟨c, rest, rfl⟩ := List.exists_cons_of_ne_nil h
  rw [dropBefore_cons]
  split
  · rename_i hdropped
    intro hnone
    rw [hnone] at hdropped
    cases hdropped.2
  · exact List.cons_ne_nil c _

theorem dropBefore_append {front back : List Char}
    (h : front.getLast? = some first → (dropBefore first second back).head? ≠ some second) :
    dropBefore first second (front ++ back) =
      dropBefore first second front ++ dropBefore first second back := by
  induction front with
  | nil => rfl
  | cons c rest ih =>
    cases rest with
    | nil =>
      rw [List.singleton_append, dropBefore_cons, if_neg, dropBefore_cons, if_neg]
      · rfl
      · rintro ⟨-, hhead⟩
        cases hhead
      · rintro ⟨rfl, hhead⟩
        exact h rfl hhead
    | cons d rest =>
      have hrest := ih h
      have hhead : (dropBefore first second (d :: rest) ++ dropBefore first second back).head? =
          (dropBefore first second (d :: rest)).head? :=
        List.head?_append_of_ne_nil _ (dropBefore_ne_nil (List.cons_ne_nil d rest))
      rw [List.cons_append, dropBefore_cons, hrest, hhead, dropBefore_cons c]
      split
      · rfl
      · rfl

end DropBefore

end Callable.Docs
