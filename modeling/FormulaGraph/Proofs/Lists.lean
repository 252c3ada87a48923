import Mathlib.Data.List.Forall2
import Mathlib.Data.List.Induction
import Mathlib.Data.List.Nodup

/-! Lists that are gone through with a function that may fail, and lists without repetitions. -/
namespace FormulaGraph

section Mapping

variable {ε α β γ : Type} {f : α → Except ε β} {xs : List α} {ys : List β}

theorem mapM_eq_ok_iff : xs.mapM f = .ok ys ↔ List.Forall₂ (fun x y => f x = .ok y) xs ys := by
  induction xs generalizing ys with
  | nil => cases ys <;> simp [pure, Except.pure]
  | cons x rest ih =>
    rw [List.mapM_cons]
    cases hx : f x with
    | error e => cases ys <;> simp [bind, Except.bind, hx]
    | ok y =>
      cases hrest : rest.mapM f with
      | error e => cases ys <;> simp [bind, Except.bind, hx, ← ih, hrest]
      | ok values => cases ys <;> simp [bind, Except.bind, pure, Except.pure, hx, ← ih, hrest]

theorem exists_of_mapM_ok (h : xs.mapM f = .ok ys) {y : β} (hy : y ∈ ys) :
    ∃ x ∈ xs, f x = .ok y := by
  have hall := mapM_eq_ok_iff.1 h
  clear h
  induction hall with
  | nil => simp at hy
  | cons hx _ ih =>
    rcases List.mem_cons.1 hy with rfl | hy
    · exact ⟨_, by simp, hx⟩
    · obtain ⟨x, hmem, hfx⟩ := ih hy
      exact ⟨x, by simp [hmem], hfx⟩

theorem map_eq_of_mapM_ok (h : xs.mapM f = .ok ys) {g : β → γ} {k : α → γ}
    (hg : ∀ x y, f x = .ok y → g y = k x) : ys.map g = xs.map k := by
  have hall := mapM_eq_ok_iff.1 h
  clear h
  induction hall with
  | nil => rfl
  | cons hx _ ih => rw [List.map_cons, List.map_cons, ih, hg _ _ hx]

theorem exists_of_mapM_error {e : ε} (h : xs.mapM f = .error e) : ∃ x ∈ xs, f x = .error e := by
  induction xs with
  | nil => contradiction
  | cons x rest ih =>
    rw [List.mapM_cons] at h
    cases hx : f x with
    | error e' =>
      rw [hx] at h
      obtain rfl := Except.error.inj h
      exact ⟨x, by simp, hx⟩
    | ok y =>
      rw [hx] at h
      cases hrest : rest.mapM f with
      | error e' =>
        simp only [bind, Except.bind, hrest, Except.error.injEq] at h
        obtain ⟨z, hz, hfz⟩ := ih (h ▸ hrest)
        exact ⟨z, by simp [hz], hfz⟩
      | ok ys =>
        rw [hrest] at h
        contradiction

theorem exists_mapM_eq_ok (h : ∀ x ∈ xs, ∃ y, f x = .ok y) : ∃ ys, xs.mapM f = .ok ys := by
  induction xs with
  | nil => exact ⟨[], rfl⟩
  | cons x rest ih =>
    obtain ⟨y, hy⟩ := h x List.mem_cons_self
    obtain ⟨ys, hys⟩ := ih fun z hz => h z (List.mem_cons_of_mem _ hz)
    exact ⟨y :: ys, mapM_eq_ok_iff.2 (.cons hy (mapM_eq_ok_iff.1 hys))⟩

/-- A function that is known where it does not fail is applied to each element. -/
theorem mapM_eq_ok_map_iff {P : α → Prop} {g : α → β} (hf : ∀ x y, f x = .ok y ↔ P x ∧ y = g x) :
    xs.mapM f = .ok ys ↔ (∀ x ∈ xs, P x) ∧ ys = xs.map g := by
  rw [mapM_eq_ok_iff]
  induction xs generalizing ys with
  | nil => simp
  | cons x rest ih =>
    rw [List.forall₂_cons_left_iff]
    constructor
    · rintro ⟨y, zs, hy, hzs, rfl⟩
      obtain ⟨hx, rfl⟩ := (hf x y).1 hy
      obtain ⟨hrest, rfl⟩ := ih.1 hzs
      exact ⟨List.forall_mem_cons.2 ⟨hx, hrest⟩, rfl⟩
    · rintro ⟨hall, rfl⟩
      obtain ⟨hx, hrest⟩ := List.forall_mem_cons.1 hall
      exact ⟨_, _, (hf _ _).2 ⟨hx, rfl⟩, ih.2 ⟨hrest, rfl⟩, rfl⟩

theorem mapM_map_ok (f : α → Except ε β) (g : β → γ) (xs : List α) :
    xs.mapM (fun x => (f x).map g) = (xs.mapM f).map (List.map g) := by
  induction xs with
  | nil => rfl
  | cons x rest ih =>
    rw [List.mapM_cons, List.mapM_cons, ih]
    cases f x with
    | error e => rfl
    | ok y => cases rest.mapM f <;> rfl

end Mapping

section Pairwise

variable {α β : Type} {R : α → β → Prop}

theorem forall₂_concat_iff {xs : List α} {x : α} {zs : List β} :
    List.Forall₂ R (xs ++ [x]) zs ↔
      ∃ ys y, zs = ys ++ [y] ∧ List.Forall₂ R xs ys ∧ R x y := by
  induction xs generalizing zs with
  | nil =>
    constructor
    · intro h
      cases h with
      | cons hx hnil =>
        cases hnil
        exact ⟨[], _, rfl, .nil, hx⟩
    · rintro ⟨ys, y, rfl, hys, hy⟩
      cases hys
      exact .cons hy .nil
  | cons z xs ih =>
    constructor
    · intro h
      cases h with
      | cons hz hrest =>
        obtain ⟨ys, y, rfl, hys, hy⟩ := ih.1 hrest
        exact ⟨_ :: ys, y, rfl, .cons hz hys, hy⟩
    · rintro ⟨ys, y, rfl, hys, hy⟩
      cases hys with
      | cons hz hys => exact .cons hz (ih.2 ⟨_, y, rfl, hys, hy⟩)

theorem map_eq_of_forall₂ {γ : Type} {f : α → γ} {g : β → γ} {xs : List α} {ys : List β}
    (h : List.Forall₂ R xs ys) (hfg : ∀ x y, R x y → f x = g y) : xs.map f = ys.map g := by
  induction h with
  | nil => rfl
  | cons hxy _ ih => rw [List.map_cons, List.map_cons, hfg _ _ hxy, ih]

theorem find?_eq_of_forall₂ {γ : Type} {p : α → Bool} {q : β → Bool} {f : α → γ} {g : β → γ}
    {xs : List α} {ys : List β} (h : List.Forall₂ R xs ys) (hpq : ∀ x y, R x y → p x = q y)
    (hfg : ∀ x y, R x y → p x = true → f x = g y) :
    (xs.find? p).map f = (ys.find? q).map g := by
  induction h with
  | nil => rfl
  | @cons x y _ _ hxy _ ih =>
    rw [List.find?_cons, List.find?_cons, ← hpq _ _ hxy]
    cases hx : p x with
    | true => exact congrArg some (hfg x y hxy hx)
    | false => exact ih

theorem any_eq_of_forall₂ {p : α → Bool} {q : β → Bool} {xs : List α} {ys : List β}
    (h : List.Forall₂ R xs ys) (hpq : ∀ x y, R x y → p x = q y) : xs.any p = ys.any q := by
  induction h with
  | nil => rfl
  | cons hxy _ ih => rw [List.any_cons, List.any_cons, hpq _ _ hxy, ih]

end Pairwise

section Distinct

variable {α β : Type} [BEq β] [LawfulBEq β] {xs ys : List β}

omit [LawfulBEq β] in
/-- Induction along the first occurrences in a list. -/
theorem eraseDups_induction {motive : List β → Prop} (nil : motive [])
    (cons : ∀ x rest, motive (rest.filter fun y => !y == x) → motive (x :: rest))
    (xs : List β) : motive xs := by
  induction hn : xs.length using Nat.strongRecOn generalizing xs with
  | ind n ih =>
    cases xs with
    | nil => exact nil
    | cons x rest =>
      have hlt : (rest.filter fun y => !y == x).length < n := by
        rw [← hn, List.length_cons]
        exact Nat.lt_succ_of_le (List.length_filter_le _ _)
      exact cons x rest (ih _ hlt _ rfl)

theorem eraseDups_filter (p : β → Bool) (xs : List β) :
    (xs.filter p).eraseDups = xs.eraseDups.filter p := by
  induction xs using eraseDups_induction with
  | nil => rfl
  | cons x rest ih =>
    rw [List.filter_cons]
    split
    · rename_i hx
      rw [List.eraseDups_cons, List.eraseDups_cons, List.filter_cons_of_pos hx, ← ih,
        List.filter_filter, List.filter_filter]
      simp only [Bool.and_comm]
    · rename_i hx
      have hskip : rest.filter p = (rest.filter fun y => !y == x).filter p := by
        rw [List.filter_filter]
        refine List.filter_congr fun y _ => ?_
        by_cases hy : y = x
        · subst hy
          simpa using hx
        · simp [hy]
      rw [List.eraseDups_cons, List.filter_cons_of_neg hx, hskip, ih]

theorem nodup_eraseDups (xs : List β) : xs.eraseDups.Nodup := by
  induction xs using eraseDups_induction with
  | nil => exact List.nodup_nil
  | cons x rest ih =>
    rw [List.eraseDups_cons, List.nodup_cons]
    refine ⟨fun h => ?_, ih⟩
    rw [List.mem_eraseDups] at h
    simpa using (List.mem_filter.1 h).2

theorem eraseDups_of_nodup (h : xs.Nodup) : xs.eraseDups = xs := by
  induction xs with
  | nil => rfl
  | cons x rest ih =>
    obtain ⟨hx, hrest⟩ := List.nodup_cons.1 h
    have hself : rest.filter (fun y => !y == x) = rest :=
      List.filter_eq_self.2 fun y hy => by simpa using fun heq : y = x => hx (heq ▸ hy)
    rw [List.eraseDups_cons, hself, ih hrest]

theorem eraseDups_append_filter (xs ys : List β) :
    (xs ++ ys).eraseDups = xs.eraseDups ++ ys.eraseDups.filter (!xs.contains ·) := by
  rw [List.eraseDups_append, List.removeAll, eraseDups_filter]

theorem eraseDups_flatMap (f : α → List β) (xs : List α) :
    (xs.flatMap fun x => (f x).eraseDups).eraseDups = (xs.flatMap f).eraseDups := by
  induction xs with
  | nil => rfl
  | cons x rest ih =>
    have hcontains : ∀ y, (f x).eraseDups.contains y = (f x).contains y := fun y => by
      rw [Bool.eq_iff_iff, List.contains_iff_mem, List.contains_iff_mem, List.mem_eraseDups]
    rw [List.flatMap_cons, List.flatMap_cons, eraseDups_append_filter, eraseDups_append_filter,
      eraseDups_of_nodup (nodup_eraseDups _), ih]
    simp only [hcontains]

end Distinct

section Keeping

variable {α : Type} (r : α → α → Bool)

/-- The elements that no earlier kept one is related to. -/
def keepFirst (xs : List α) : List α :=
  (xs.foldl (fun kept x => if kept.any (r · x) then kept else x :: kept) []).reverse

theorem keepFirst_concat (xs : List α) (x : α) : keepFirst r (xs ++ [x]) =
    if (keepFirst r xs).any (r · x) then keepFirst r xs else keepFirst r xs ++ [x] := by
  unfold keepFirst
  rw [List.foldl_append, List.foldl_cons, List.foldl_nil, List.any_reverse]
  split
  · rfl
  · rw [List.reverse_cons]

variable {r} {xs : List α} {x : α}

theorem mem_of_mem_keepFirst (h : x ∈ keepFirst r xs) : x ∈ xs := by
  induction xs using List.reverseRecOn with
  | nil => exact h
  | append_singleton xs y ih =>
    rw [keepFirst_concat] at h
    split at h
    · exact List.mem_append_left _ (ih h)
    · rcases List.mem_append.1 h with hmem | hmem
      · exact List.mem_append_left _ (ih hmem)
      · exact List.mem_append_right _ hmem

theorem pairwise_keepFirst (xs : List α) : (keepFirst r xs).Pairwise fun x y => r x y = false := by
  induction xs using List.reverseRecOn with
  | nil => exact List.Pairwise.nil
  | append_singleton xs y ih =>
    rw [keepFirst_concat]
    split
    · exact ih
    · rename_i hnone
      rw [List.any_eq_true, not_exists] at hnone
      refine List.pairwise_append.2 ⟨ih, List.pairwise_singleton _ _, fun x hx z hz => ?_⟩
      obtain rfl := List.mem_singleton.1 hz
      exact Bool.eq_false_iff.2 fun hxz => hnone x ⟨hx, hxz⟩

theorem keepFirst_of_pairwise (h : xs.Pairwise fun x y => r x y = false) : keepFirst r xs = xs := by
  induction xs using List.reverseRecOn with
  | nil => rfl
  | append_singleton xs x ih =>
    obtain ⟨hxs, -, hx⟩ := List.pairwise_append.1 h
    rw [keepFirst_concat, ih hxs, if_neg]
    rw [List.any_eq_true, not_exists]
    rintro y ⟨hy, hyx⟩
    rw [hx y hy x List.mem_cons_self] at hyx
    contradiction

/-- Every element is kept or related to a kept one. -/
theorem exists_keepFirst (h : x ∈ xs) :
    x ∈ keepFirst r xs ∨ ∃ y ∈ keepFirst r xs, r y x = true := by
  induction xs using List.reverseRecOn with
  | nil => simp at h
  | append_singleton xs z ih =>
    have hsub : ∀ y ∈ keepFirst r xs, y ∈ keepFirst r (xs ++ [z]) := by
      intro y hy
      rw [keepFirst_concat]
      split
      · exact hy
      · exact List.mem_append_left _ hy
    rcases List.mem_append.1 h with hmem | hmem
    · rcases ih hmem with hkept | ⟨y, hy, hyx⟩
      · exact Or.inl (hsub x hkept)
      · exact Or.inr ⟨y, hsub y hy, hyx⟩
    · obtain rfl := List.mem_singleton.1 hmem
      by_cases hany : (keepFirst r xs).any (r · x) = true
      · obtain ⟨y, hy, hyx⟩ := List.any_eq_true.1 hany
        exact Or.inr ⟨y, hsub y hy, hyx⟩
      · left
        rw [keepFirst_concat, if_neg hany]
        exact List.mem_append_right _ List.mem_cons_self

theorem keepFirst_map {β : Type} (f : β → α) (ys : List β) :
    keepFirst r (ys.map f) = (keepFirst (fun y z => r (f y) (f z)) ys).map f := by
  induction ys using List.reverseRecOn with
  | nil => rfl
  | append_singleton ys y ih =>
    have hany : (keepFirst r (ys.map f)).any (r · (f y)) =
        (keepFirst (fun y z => r (f y) (f z)) ys).any fun z => r (f z) (f y) := by
      rw [ih, List.any_map]
      rfl
    rw [List.map_append, List.map_cons, List.map_nil, keepFirst_concat, keepFirst_concat, hany]
    split
    · exact ih
    · rw [ih, List.map_append, List.map_cons, List.map_nil]

/-- A test that does not tell related elements apart may be made before or afterwards. -/
theorem filter_keepFirst {p : α → Bool} {xs : List α}
    (hp : ∀ x ∈ xs, ∀ y ∈ xs, r x y = true → p x = p y) :
    (keepFirst r xs).filter p = keepFirst r (xs.filter p) := by
  induction xs using List.reverseRecOn with
  | nil => rfl
  | append_singleton xs x ih =>
    have hrest := ih fun y hy z hz => hp y (List.mem_append_left _ hy) z (List.mem_append_left _ hz)
    rw [keepFirst_concat, List.filter_append]
    by_cases hx : p x = true
    · rw [List.filter_cons_of_pos hx, List.filter_nil, keepFirst_concat, ← hrest, List.any_filter]
      have hany : ((keepFirst r xs).any fun y => p y && r y x) = (keepFirst r xs).any (r · x) := by
        rw [Bool.eq_iff_iff, List.any_eq_true, List.any_eq_true]
        refine exists_congr fun y => and_congr_right fun hy => ?_
        cases hyx : r y x with
        | false => rw [Bool.and_false]
        | true =>
          have hmem := List.mem_append_left [x] (mem_of_mem_keepFirst hy)
          rw [hp y hmem x (by simp) hyx, hx, Bool.and_true]
      rw [hany]
      split
      · rfl
      · rw [List.filter_append, List.filter_cons_of_pos hx, List.filter_nil]
    · rw [List.filter_cons_of_neg hx, List.filter_nil, List.append_nil, ← hrest]
      split
      · rfl
      · rw [List.filter_append, List.filter_cons_of_neg hx, List.filter_nil, List.append_nil]

theorem any_keepFirst {p : α → Bool} {xs : List α}
    (hp : ∀ x ∈ xs, ∀ y ∈ xs, r x y = true → p x = p y) : (keepFirst r xs).any p = xs.any p := by
  rw [Bool.eq_iff_iff, List.any_eq_true, List.any_eq_true]
  constructor
  · exact fun ⟨x, hx, h⟩ => ⟨x, mem_of_mem_keepFirst hx, h⟩
  · rintro ⟨x, hx, h⟩
    rcases exists_keepFirst (r := r) hx with hmem | ⟨y, hy, hyx⟩
    · exact ⟨x, hmem, h⟩
    · exact ⟨y, hy, (hp y (mem_of_mem_keepFirst hy) x hx hyx).trans h⟩

/-- Elements related more closely may be left out first. -/
theorem keepFirst_keepFirst {q : α → α → Bool} (hqr : ∀ x y, q x y = true → r x y = true)
    (htrans : ∀ x y z, r x y = true → r y z = true → r x z = true) (xs : List α) :
    keepFirst r (keepFirst q xs) = keepFirst r xs := by
  induction xs using List.reverseRecOn with
  | nil => rfl
  | append_singleton xs x ih =>
    rw [keepFirst_concat q]
    split
    · rename_i hany
      obtain ⟨y, hy, hyx⟩ := List.any_eq_true.1 hany
      have hkept : (keepFirst r xs).any (r · x) = true := by
        rcases exists_keepFirst (r := r) (mem_of_mem_keepFirst hy) with hmem | ⟨z, hz, hzy⟩
        · exact List.any_eq_true.2 ⟨y, hmem, hqr y x hyx⟩
        · exact List.any_eq_true.2 ⟨z, hz, htrans z y x hzy (hqr y x hyx)⟩
      rw [ih, keepFirst_concat, if_pos hkept]
    · rw [keepFirst_concat, keepFirst_concat, ih]

theorem keepFirst_sublist (xs : List α) : (keepFirst r xs).Sublist xs := by
  induction xs using List.reverseRecOn with
  | nil => exact List.Sublist.refl _
  | append_singleton xs x ih =>
    rw [keepFirst_concat]
    split
    · exact ih.trans (List.sublist_append_left _ _)
    · exact ih.append (List.Sublist.refl _)

/-- What is kept stays in front of what is kept of the elements behind. -/
theorem keepFirst_prefix (xs ys : List α) : keepFirst r xs <+: keepFirst r (xs ++ ys) := by
  induction ys using List.reverseRecOn with
  | nil => simp
  | append_singleton ys y ih =>
    rw [← List.append_assoc, keepFirst_concat]
    split
    · exact ih
    · exact ih.trans (List.prefix_append _ _)

/-- Of an element that comes several times in a row, one is enough. -/
theorem keepFirst_flatMap_const {β : Type} (hself : ∀ x ∈ xs, r x x = true) (f : α → List β) :
    keepFirst r (xs.flatMap fun x => (f x).map fun _ => x) =
      keepFirst r (xs.filter fun x => !(f x).isEmpty) := by
  induction xs using List.reverseRecOn with
  | nil => rfl
  | append_singleton xs x ih =>
    have hx := hself x (by simp)
    have hrepeat : ∀ (ys : List α) (zs : List β), zs ≠ [] →
        keepFirst r (ys ++ zs.map fun _ => x) = keepFirst r (ys ++ [x]) := by
      intro ys zs hne
      induction zs using List.reverseRecOn with
      | nil => contradiction
      | append_singleton zs z ihz =>
        rw [List.map_append, ← List.append_assoc, List.map_cons, List.map_nil]
        by_cases hnil : zs = []
        · rw [hnil]
          simp
        · have hkept : (keepFirst r (ys ++ zs.map fun _ => x)).any (r · x) = true := by
            have hmem : x ∈ ys ++ zs.map fun _ => x := by
              refine List.mem_append_right _ (List.mem_map.2 ?_)
              obtain ⟨w, hw⟩ := List.exists_mem_of_ne_nil _ hnil
              exact ⟨w, hw, rfl⟩
            rcases exists_keepFirst (r := r) hmem with hmem | ⟨y, hy, hyx⟩
            · exact List.any_eq_true.2 ⟨x, hmem, hx⟩
            · exact List.any_eq_true.2 ⟨y, hy, hyx⟩
          rw [keepFirst_concat, if_pos hkept, ihz hnil]
    have hrest := ih fun y hy => hself y (List.mem_append_left _ hy)
    rw [List.flatMap_append, List.filter_append, List.flatMap_singleton]
    by_cases hnil : f x = []
    · rw [hnil, List.map_nil, List.append_nil, List.filter_cons_of_neg (by simp [hnil]),
        List.filter_nil, List.append_nil, hrest]
    · rw [hrepeat _ _ hnil, keepFirst_concat, hrest, List.filter_cons_of_pos (by simp [hnil]),
        List.filter_nil, keepFirst_concat]

theorem forall₂_keepFirst {β : Type} {q : β → β → Bool} {R : α → β → Prop}
    (hR : ∀ x y x' y', R x x' → R y y' → r x y = q x' y') {xs : List α} {ys : List β}
    (h : List.Forall₂ R xs ys) : List.Forall₂ R (keepFirst r xs) (keepFirst q ys) := by
  induction xs using List.reverseRecOn generalizing ys with
  | nil =>
    cases h
    exact .nil
  | append_singleton xs x ih =>
    obtain ⟨ys, y, rfl, hxs, hxy⟩ := forall₂_concat_iff.1 h
    have hkept := ih hxs
    rw [keepFirst_concat, keepFirst_concat,
      any_eq_of_forall₂ hkept fun z z' hz => hR z x z' y hz hxy]
    split
    · exact hkept
    · exact forall₂_concat_iff.2 ⟨_, y, rfl, hkept, hxy⟩

end Keeping

theorem findSome?_eq_ite {α β : Type} {xs : List α} {c : α → Bool} {f : α → Option β}
    {b : Option β} (h : ∀ x ∈ xs, f x = if c x then b else none) :
    xs.findSome? f = if xs.any c then b else none := by
  induction xs with
  | nil => rfl
  | cons x xs ih =>
    rw [List.findSome?_cons, h x List.mem_cons_self, ih fun y hy => h y (List.mem_cons_of_mem _ hy),
      List.any_cons]
    cases c x <;> cases b <;> simp

section Filtering

variable {α β : Type} {p q : α → Bool} {xs : List α}

end Filtering

section Inserting

variable {ε α β : Type} {P : α → Prop} {xs ys : List α}

/-- A list with further elements of a kind put anywhere into it. -/
inductive Inserted (P : α → Prop) : List α → List α → Prop
  | nil : Inserted P [] []
  | keep {xs ys : List α} (x : α) (h : Inserted P xs ys) : Inserted P (x :: xs) (x :: ys)
  | insert {xs ys : List α} {y : α} (hy : P y) (h : Inserted P xs ys) : Inserted P xs (y :: ys)

namespace Inserted

theorem subset (h : Inserted P xs ys) : xs ⊆ ys := by
  induction h with
  | nil => exact List.Subset.refl _
  | keep x _ ih => exact List.cons_subset_cons x ih
  | insert _ _ ih => exact List.subset_cons_of_subset _ ih

theorem imp {Q : α → Prop} (h : Inserted P xs ys) (hPQ : ∀ y, P y → Q y) : Inserted Q xs ys := by
  induction h with
  | nil => exact .nil
  | keep x _ ih => exact .keep x ih
  | insert hy _ ih => exact .insert (hPQ _ hy) ih

end Inserted

end Inserting

theorem eraseDups_eq_keepFirst {α : Type} [BEq α] [LawfulBEq α] (xs : List α) :
    xs.eraseDups = keepFirst (· == ·) xs := by
  induction xs using List.reverseRecOn with
  | nil => rfl
  | append_singleton xs x ih =>
    have hany : (keepFirst (· == ·) xs).any (· == x) = xs.contains x := by
      rw [← ih, List.any_beq', Bool.eq_iff_iff, List.contains_iff_mem, List.contains_iff_mem,
        List.mem_eraseDups]
    rw [eraseDups_append_filter, keepFirst_concat, hany, ih,
      eraseDups_of_nodup (List.nodup_singleton x)]
    cases hx : xs.contains x with
    | true => simp [List.contains_iff_mem.1 hx]
    | false =>
      have hnew : x ∉ xs := fun hmem => by simp [hmem] at hx
      simp [hnew]

/-- Elements that a function does not tell apart may be left out before its values are. -/
theorem eraseDups_map_keepFirst {α β : Type} [BEq β] [LawfulBEq β] {q : α → α → Bool} {f : α → β}
    (hf : ∀ x y, q x y = true → f x = f y) (xs : List α) :
    ((keepFirst q xs).map f).eraseDups = (xs.map f).eraseDups := by
  rw [eraseDups_eq_keepFirst, eraseDups_eq_keepFirst, keepFirst_map, keepFirst_map,
    keepFirst_keepFirst (fun x y h => by simpa using hf x y h)
      fun x y z hxy hyz => by simpa using (eq_of_beq hxy).trans (eq_of_beq hyz)]

end FormulaGraph
