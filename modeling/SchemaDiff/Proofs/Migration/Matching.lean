import Mathlib.Data.List.Forall2
import SchemaDiff.Proofs.Migration.TableRun

namespace SchemaDiff.Migration

section Forall₂

variable {α β γ : Type} {R : α → β → Prop}

-- Lists that become one list agree member by member.
theorem map_eq_map_iff {f : α → γ} {g : β → γ} {xs : List α} {ys : List β} :
    xs.map f = ys.map g ↔ List.Forall₂ (fun x y => f x = g y) xs ys := by
  rw [← List.forall₂_eq_eq_eq, List.forall₂_map_left_iff, List.forall₂_map_right_iff]

theorem exists_of_forall₂ {xs : List α} {ys : List β} (h : List.Forall₂ R xs ys) {y : β}
    (hy : y ∈ ys) : ∃ x ∈ xs, R x y := by
  induction h with
  | nil => cases hy
  | cons hR _ ih =>
      cases hy with
      | head => exact ⟨_, .head _, hR⟩
      | tail _ hy =>
          obtain ⟨x, hx, hR⟩ := ih hy
          exact ⟨x, .tail _ hx, hR⟩

theorem forall₂_flatMap {f : γ → List α} {g : γ → List β} {xs : List γ}
    (h : ∀ x ∈ xs, List.Forall₂ R (f x) (g x)) :
    List.Forall₂ R (xs.flatMap f) (xs.flatMap g) := by
  induction xs with
  | nil => exact .nil
  | cons x xs ih =>
      rw [List.forall_mem_cons] at h
      exact List.rel_append h.1 (ih h.2)

-- Members of two lists that belong together.
structure Paired (R : α → β → Prop) (xs : List α) (ys : List β) (x : α) (y : β) : Prop where
  left : x ∈ xs
  right : y ∈ ys
  rel : R x y

theorem forall₂_paired {xs : List α} {ys : List β} (h : List.Forall₂ R xs ys) :
    List.Forall₂ (Paired R xs ys) xs ys := by
  obtain ⟨hlength, hrel⟩ := List.forall₂_iff_zip.mp h
  refine List.forall₂_iff_zip.mpr ⟨hlength, fun hmem => ?_⟩
  exact ⟨(List.of_mem_zip hmem).1, (List.of_mem_zip hmem).2, hrel hmem⟩

-- What is sought by the same sign is found at the same place.
theorem rel_find? {f : α → Bool} {g : β → Bool} {xs : List α} {ys : List β}
    (h : List.Forall₂ R xs ys) (hfg : ∀ x y, R x y → f x = g y) :
    Option.Rel R (xs.find? f) (ys.find? g) := by
  induction h with
  | nil => exact .none
  | @cons x y _ _ hxy _ ih =>
      rw [List.find?_cons, List.find?_cons, hfg x y hxy]
      split
      · exact .some hxy
      · exact ih

theorem rel_filter {f : α → Bool} {g : β → Bool} {xs : List α} {ys : List β}
    (h : List.Forall₂ R xs ys) (hfg : ∀ x y, R x y → f x = g y) :
    List.Forall₂ R (xs.filter f) (ys.filter g) := by
  refine List.rel_filter (fun x y hxy => ?_) h
  show f x = true ↔ g y = true
  rw [hfg x y hxy]

theorem rel_findSome? {γ δ : Type} {S : γ → δ → Prop} {f : α → Option γ} {g : β → Option δ}
    {xs : List α} {ys : List β} (h : List.Forall₂ R xs ys)
    (hfg : ∀ x y, R x y → Option.Rel S (f x) (g y)) :
    Option.Rel S (xs.findSome? f) (ys.findSome? g) := by
  induction h with
  | nil => exact .none
  | @cons x y _ _ hxy _ ih =>
      rw [List.findSome?_cons, List.findSome?_cons]
      have hfirst := hfg x y hxy
      generalize f x = o, g y = o' at hfirst ⊢
      cases hfirst with
      | some hS => exact .some hS
      | none => exact ih

theorem any_eq_of_forall₂ {f : α → Bool} {g : β → Bool} {xs : List α} {ys : List β}
    (h : List.Forall₂ R xs ys) (hfg : ∀ x y, R x y → f x = g y) : xs.any f = ys.any g := by
  induction h with
  | nil => rfl
  | @cons x y _ _ hxy _ ih => rw [List.any_cons, List.any_cons, hfg x y hxy, ih]

theorem isSome_eq_of_rel {o : Option α} {o' : Option β} (h : Option.Rel R o o') :
    o.isSome = o'.isSome := by
  cases h <;> rfl

theorem isNone_eq_of_rel {o : Option α} {o' : Option β} (h : Option.Rel R o o') :
    o.isNone = o'.isNone := by
  cases h <;> rfl

end Forall₂

-- Every member is found under one of the keys.
theorem flatMap_filter_perm {α κ : Type} [BEq κ] [LawfulBEq κ] {key : α → κ} {keys : List κ}
    {xs : List α} (hkeys : keys.Nodup) (h : ∀ x ∈ xs, key x ∈ keys) :
    (keys.flatMap fun k => xs.filter (key · == k)).Perm xs := by
  induction keys generalizing xs with
  | nil =>
      obtain rfl : xs = [] := List.eq_nil_iff_forall_not_mem.mpr fun x hx => by simpa using h x hx
      exact .nil
  | cons k keys ih =>
      obtain ⟨hk, hkeys⟩ := List.nodup_cons.mp hkeys
      have hrest : keys.flatMap (fun k' => xs.filter (key · == k')) =
          keys.flatMap fun k' => (xs.filter fun x => !(key x == k)).filter (key · == k') := by
        refine List.flatMap_congr fun k' hk' => ?_
        rw [List.filter_filter]
        refine List.filter_congr fun x _ => ?_
        by_cases hx : key x = k'
        · have hne : k' ≠ k := fun heq => hk (heq ▸ hk')
          simp [hx, hne]
        · simp [hx]
      rw [List.flatMap_cons, hrest]
      refine (List.Perm.append_left _ (ih hkeys fun x hx => ?_)).trans (List.filter_append_perm _ xs)
      obtain ⟨hx, hne⟩ := List.mem_filter.mp hx
      exact (List.mem_cons.mp (h x hx)).resolve_left (by simpa using hne)

section Matched

variable {α β : Type} {name : α → String} {R S : α → α → Prop} {xs ys : List α}

-- Each member of one list has a partner of its name in the other.
structure Matched (name : α → String) (R : α → α → Prop) (xs ys : List α) : Prop where
  left : ∀ x ∈ xs, ∃ y ∈ ys, name y = name x ∧ R x y
  right : ∀ y ∈ ys, ∃ x ∈ xs, name x = name y ∧ R x y

theorem Matched.imp (h : Matched name R xs ys)
    (himp : ∀ x ∈ xs, ∀ y ∈ ys, name x = name y → R x y → S x y) : Matched name S xs ys where
  left x hx := by
    obtain ⟨y, hy, hname, hR⟩ := h.left x hx
    exact ⟨y, hy, hname, himp x hx y hy hname.symm hR⟩
  right y hy := by
    obtain ⟨x, hx, hname, hR⟩ := h.right y hy
    exact ⟨x, hx, hname, himp x hx y hy hname hR⟩

-- Where names are told apart, two lists hold the same under every name if each member of one has
-- its equal in the other.
theorem find?_map_eq_iff {f : α → β} (hx : (xs.map name).Nodup) (hy : (ys.map name).Nodup) :
    (∀ n, (xs.find? (name · == n)).map f = (ys.find? (name · == n)).map f) ↔
      Matched name (fun x y => f x = f y) xs ys := by
  have hfindX : ∀ {n x}, xs.find? (name · == n) = some x ↔ x ∈ xs ∧ name x = n :=
    TablePair.find?_name_eq_some hx
  have hfindY : ∀ {n y}, ys.find? (name · == n) = some y ↔ y ∈ ys ∧ name y = n :=
    TablePair.find?_name_eq_some hy
  constructor
  · intro h
    constructor
    · intro x hm
      have hname := h (name x)
      rw [hfindX.mpr ⟨hm, rfl⟩] at hname
      obtain ⟨y, hfound, hsame⟩ := Option.map_eq_some_iff.mp hname.symm
      exact ⟨y, (hfindY.mp hfound).1, (hfindY.mp hfound).2, hsame.symm⟩
    · intro y hm
      have hname := h (name y)
      rw [hfindY.mpr ⟨hm, rfl⟩] at hname
      obtain ⟨x, hfound, hsame⟩ := Option.map_eq_some_iff.mp hname
      exact ⟨x, (hfindX.mp hfound).1, (hfindX.mp hfound).2, hsame⟩
  · rintro ⟨hleft, hright⟩ n
    cases hfound : xs.find? (name · == n) with
    | some x =>
        obtain ⟨hm, rfl⟩ := hfindX.mp hfound
        obtain ⟨y, hy, hname, hsame⟩ := hleft x hm
        rw [hfindY.mpr ⟨hy, hname⟩, Option.map_some, Option.map_some, hsame]
    | none =>
        cases hother : ys.find? (name · == n) with
        | none => rfl
        | some y =>
            obtain ⟨hm, rfl⟩ := hfindY.mp hother
            obtain ⟨x, hx, hname, -⟩ := hright y hm
            rw [hfindX.mpr ⟨hx, hname⟩] at hfound
            cases hfound

-- Lists that are one another's rearrangement under `f` match where `f` keeps the names.
theorem matched_of_perm {f : α → β} {xs ys : List α}
    (hname : ∀ x y, f x = f y → name x = name y) (h : (xs.map f).Perm (ys.map f)) :
    Matched name (fun x y => f x = f y) xs ys where
  left x hx := by
    obtain ⟨y, hy, hsame⟩ := List.mem_map.mp (h.mem_iff.mp (List.mem_map_of_mem hx))
    exact ⟨y, hy, hname y x hsame, hsame.symm⟩
  right y hy := by
    obtain ⟨x, hx, hsame⟩ := List.mem_map.mp (h.mem_iff.mpr (List.mem_map_of_mem hy))
    exact ⟨x, hx, hname x y hsame, hsame⟩

-- Where names are told apart, every member is matched with the one that it belongs to.
theorem matched_map_iff {f : β → α} {belongs : β → α → Prop} {P : β → Prop} {xs : List β}
    (h : List.Forall₂ belongs xs ys) (hys : (ys.map name).Nodup)
    (hname : ∀ x y, belongs x y → name (f x) = name y)
    (hR : ∀ x y, belongs x y → (R (f x) y ↔ P x)) :
    Matched name R (xs.map f) ys ↔ ∀ x ∈ xs, P x := by
  constructor
  · intro hmatched x hx
    obtain ⟨y, hy, hsame⟩ := exists_of_forall₂ h.flip hx
    obtain ⟨y', hy', hname', hR'⟩ := hmatched.left (f x) (List.mem_map_of_mem hx)
    obtain rfl : y = y' :=
      List.inj_on_of_nodup_map hys hy hy' ((hname x y hsame).symm.trans hname'.symm)
    exact (hR x y hsame).mp hR'
  · intro hP
    constructor
    · simp only [List.forall_mem_map]
      intro x hx
      obtain ⟨y, hy, hsame⟩ := exists_of_forall₂ h.flip hx
      exact ⟨y, hy, (hname x y hsame).symm, (hR x y hsame).mpr (hP x hx)⟩
    · intro y hy
      obtain ⟨x, hx, hsame⟩ := exists_of_forall₂ h hy
      exact ⟨f x, List.mem_map_of_mem hx, hname x y hsame, (hR x y hsame).mpr (hP x hx)⟩

end Matched

end SchemaDiff.Migration
