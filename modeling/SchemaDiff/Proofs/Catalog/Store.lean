import Mathlib.Data.List.Nodup
import Mathlib.Logic.Function.Basic

namespace SchemaDiff

-- What is kept under names. A name has one value, or none.
abbrev Store (β : Type) : Type := String → Option β

namespace Store

variable {β : Type}

def empty : Store β := fun _ => none

-- A name is used once.
def add (s : Store β) (name : String) (value : β) : Option (Store β) :=
  if (s name).isSome then none else some (Function.update s name (some value))

-- Only what is there can be removed.
def remove (s : Store β) (name : String) : Option (Store β) :=
  if (s name).isNone then none else some (Function.update s name none)

-- Only what is there can be changed.
def change (s : Store β) (name : String) (f : β → Option β) : Option (Store β) :=
  (s name).bind fun value => (f value).map fun value => Function.update s name (some value)

def rename (s : Store β) (old new : String) : Option (Store β) := do
  let value ← s old
  let removed ← s.remove old
  removed.add new value

def filter (p : β → Bool) (s : Store β) : Store β := fun name => (s name).filter p

def map (f : β → β) (s : Store β) : Store β := fun name => (s name).map f

-- The first entry of a name counts.
def ofList (entries : List (String × β)) : Store β := fun name => entries.lookup name

@[simp] theorem ofList_nil : ofList ([] : List (String × β)) = empty := rfl

theorem ofList_apply (entries : List (String × β)) (name : String) :
    ofList entries name = entries.lookup name := rfl

theorem lookup_eq_none {l : List (String × β)} {name : String} (h : name ∉ l.map Prod.fst) :
    l.lookup name = none := by
  rw [List.lookup_eq_none_iff]
  intro entry he
  simp only [bne_iff_ne]
  rintro rfl
  exact h (List.mem_map_of_mem he)

-- Where names are used once, looking up a name and having an entry is the same.
theorem lookup_eq_some_iff_mem {l : List (String × β)} (h : (l.map Prod.fst).Nodup)
    {name : String} {value : β} : l.lookup name = some value ↔ (name, value) ∈ l := by
  rw [List.lookup_eq_some_iff]
  constructor
  · rintro ⟨l₁, l₂, rfl, -⟩
    simp
  · intro hm
    obtain ⟨l₁, l₂, rfl⟩ := List.append_of_mem hm
    refine ⟨l₁, l₂, rfl, fun entry he => ?_⟩
    simp only [List.map_append, List.map_cons, List.nodup_append, List.mem_cons] at h
    simpa [bne_iff_ne] using (h.2.2 entry.1 (List.mem_map_of_mem he) name (.inl rfl)).symm

-- The order of the entries does not matter.
theorem ofList_congr {l l' : List (String × β)} (h : (l.map Prod.fst).Nodup)
    (h' : (l'.map Prod.fst).Nodup) (hm : ∀ entry, entry ∈ l ↔ entry ∈ l') :
    ofList l = ofList l' := by
  funext name
  refine Option.ext fun value => ?_
  rw [ofList_apply, ofList_apply, lookup_eq_some_iff_mem h, lookup_eq_some_iff_mem h', hm]

theorem ofList_append_congr {m m' : List (String × β)} (h : ofList m = ofList m')
    (l r : List (String × β)) : ofList (l ++ m ++ r) = ofList (l ++ m' ++ r) := by
  funext name
  have hm : m.lookup name = m'.lookup name := congrFun h name
  simp only [ofList_apply, List.lookup_append, hm]

-- Members with names of their own give results with names of their own.
theorem nodup_map_filterMap {α γ κ : Type} (name : α → κ) {key : γ → κ} {f : α → Option γ}
    (hf : ∀ x y, f x = some y → key y = name x) {xs : List α} (h : (xs.map name).Nodup) :
    ((xs.filterMap f).map key).Nodup := by
  have hs : ((xs.filterMap f).map key).Sublist (xs.map name) := by
    clear h
    induction xs with
    | nil => exact .slnil
    | cons x xs ih =>
        rw [List.filterMap_cons]
        cases hx : f x with
        | none => exact ih.cons _
        | some y => simpa only [List.map_cons, hf x y hx] using ih.cons_cons (name x)
  exact hs.nodup h

theorem ofList_append_cons (l r : List (String × β)) (name : String) (value : β)
    (hl : name ∉ l.map Prod.fst) :
    ofList (l ++ (name, value) :: r) = Function.update (ofList (l ++ r)) name (some value) := by
  funext other
  rw [ofList_apply, List.lookup_append, List.lookup_cons]
  by_cases he : other = name
  · subst other
    simp [lookup_eq_none hl]
  · rw [Function.update_of_ne he, ofList_apply, List.lookup_append, beq_false_of_ne he]

theorem ofList_eq_none {l : List (String × β)} {name : String} (h : name ∉ l.map Prod.fst) :
    ofList l name = none :=
  lookup_eq_none h

theorem ofList_middle (l r : List (String × β)) (name : String) (value : β)
    (hl : name ∉ l.map Prod.fst) : ofList (l ++ (name, value) :: r) name = some value := by
  rw [ofList_append_cons l r name value hl, Function.update_self]

theorem add_ofList (l r : List (String × β)) (name : String) (value : β)
    (hl : name ∉ l.map Prod.fst) (hr : name ∉ r.map Prod.fst) :
    (ofList (l ++ r)).add name value = some (ofList (l ++ (name, value) :: r)) := by
  have hn : ofList (l ++ r) name = none := ofList_eq_none (by simp [hl, hr])
  rw [ofList_append_cons l r name value hl]
  simp [add, hn]

theorem remove_ofList (l r : List (String × β)) (name : String) (value : β)
    (hl : name ∉ l.map Prod.fst) (hr : name ∉ r.map Prod.fst) :
    (ofList (l ++ (name, value) :: r)).remove name = some (ofList (l ++ r)) := by
  have hn : ofList (l ++ r) name = none := ofList_eq_none (by simp [hl, hr])
  rw [remove, ofList_middle l r name value hl, ofList_append_cons l r name value hl,
    Function.update_idem, ← hn, Function.update_eq_self]
  rfl

theorem change_ofList (l r : List (String × β)) (name : String) (value : β)
    (f : β → Option β) (hl : name ∉ l.map Prod.fst) :
    (ofList (l ++ (name, value) :: r)).change name f =
      (f value).map fun value => ofList (l ++ (name, value) :: r) := by
  rw [change, ofList_middle l r name value hl, Option.bind_some]
  congr 1
  funext changed
  rw [ofList_append_cons l r name value hl, ofList_append_cons l r name changed hl,
    Function.update_idem]

-- What is filtered out leaves no trace, as long as it hides no entry of its name.
theorem filter_ofList {p : β → Bool} {l m r : List (String × β)} (hl : ∀ e ∈ l, p e.2 = true)
    (hm : ∀ e ∈ m, p e.2 = false) (hr : ∀ e ∈ r, p e.2 = true)
    (hmr : ∀ e ∈ m, e.1 ∉ r.map Prod.fst) :
    (ofList (l ++ m ++ r)).filter p = ofList (l ++ r) := by
  have hmem : ∀ {l : List (String × β)} {name : String} {value : β},
      l.lookup name = some value → (name, value) ∈ l := by
    intro l name value h
    obtain ⟨l₁, l₂, rfl, -⟩ := List.lookup_eq_some_iff.mp h
    simp
  funext name
  simp only [filter, ofList_apply, List.lookup_append]
  cases hl' : l.lookup name with
  | some value => simp [Option.filter, hl _ (hmem hl')]
  | none =>
      cases hm' : m.lookup name with
      | some value =>
          simp [Option.filter, hm _ (hmem hm'), lookup_eq_none (hmr _ (hmem hm'))]
      | none =>
          cases hr' : r.lookup name with
          | some value => simp [Option.filter, hr _ (hmem hr')]
          | none => simp

end Store

end SchemaDiff
