import SchemaDiff.Statement

namespace SchemaDiff

-- What is followed while the statements of a script are executed one after the other: what each of
-- them makes of it, and which statements it admits.
structure Watch (σ : Type) where
  exec : σ → Statement → σ
  Admits : σ → Statement → Prop

namespace Watch

variable {σ : Type} {w : Watch σ}

def execAll (w : Watch σ) (o : σ) (m : Script) : σ :=
  m.foldl w.exec o

-- Every statement is admitted when its turn comes.
def Follows (w : Watch σ) : σ → Script → Prop
  | _, [] => True
  | o, s :: m => w.Admits o s ∧ w.Follows (w.exec o s) m

instance instDecidableFollows (w : Watch σ) [∀ o, DecidablePred (w.Admits o)] :
    ∀ o m, Decidable (w.Follows o m)
  | _, [] => isTrue trivial
  | o, s :: m =>
      have := instDecidableFollows w (w.exec o s) m
      inferInstanceAs (Decidable (w.Admits o s ∧ w.Follows (w.exec o s) m))

theorem execAll_cons (o : σ) (s : Statement) (m : Script) :
    w.execAll o (s :: m) = w.execAll (w.exec o s) m := rfl

theorem execAll_append (o : σ) (first second : Script) :
    w.execAll o (first ++ second) = w.execAll (w.execAll o first) second :=
  List.foldl_append

theorem follows_append {o : σ} {first second : Script} :
    w.Follows o (first ++ second) ↔ w.Follows o first ∧ w.Follows (w.execAll o first) second := by
  induction first generalizing o with
  | nil => simp [Follows, execAll]
  | cons s first ih => simp [Follows, execAll_cons, ih, and_assoc]

@[simp] theorem follows_singleton {o : σ} {s : Statement} :
    w.Follows o [s] ↔ w.Admits o s := by
  simp [Follows]

-- The statements before a statement lead to the state that has to admit it.
theorem follows_iff {o : σ} {m : Script} :
    w.Follows o m ↔ ∀ pre s post, m = pre ++ s :: post → w.Admits (w.execAll o pre) s := by
  constructor
  · rintro h pre s post rfl
    exact (follows_append.mp h).2.1
  · intro h
    induction m generalizing o with
    | nil => trivial
    | cons s m ih =>
        refine ⟨h [] s m rfl, ih fun pre x post hm => ?_⟩
        exact h (s :: pre) x post (by rw [hm, List.cons_append])

theorem follows_of_forall {o : σ} {m : Script} (h : ∀ s ∈ m, ∀ o, w.Admits o s) :
    w.Follows o m :=
  follows_iff.mpr fun _ s _ hm => h s (by simp [hm]) _

-- What every statement of a script keeps holds behind it.
theorem execAll_of {P : σ → Prop} {m : Script} {o : σ}
    (h : ∀ s ∈ m, ∀ o, P o → P (w.exec o s)) (ho : P o) : P (w.execAll o m) := by
  induction m generalizing o with
  | nil => exact ho
  | cons s m ih =>
      exact ih (fun x hx => h x (by simp [hx])) (h s (by simp) o ho)

-- A pass over a list, one script for each of its members. What is known after a part of the list
-- decides whether the script of the next member is admitted.
theorem follows_flatMap {α : Type} {statements : α → Script} {K : List α → σ → Prop}
    {P : α → Prop} {xs : List α} {o : σ} (hnil : K [] o)
    (hstep : ∀ pre a post o, xs = pre ++ a :: post → K pre o →
      K (pre ++ [a]) (w.execAll o (statements a)) ∧ (w.Follows o (statements a) ↔ P a)) :
    K xs (w.execAll o (xs.flatMap statements)) ∧
      (w.Follows o (xs.flatMap statements) ↔ ∀ a ∈ xs, P a) := by
  have hrest : ∀ post pre o, xs = pre ++ post → K pre o →
      K xs (w.execAll o (post.flatMap statements)) ∧
        (w.Follows o (post.flatMap statements) ↔ ∀ a ∈ post, P a) := by
    intro post
    induction post with
    | nil =>
        rintro pre o hxs hknown
        obtain rfl : xs = pre := by simpa using hxs
        exact ⟨hknown, by simp [Follows]⟩
    | cons a post ih =>
        intro pre o hxs hknown
        obtain ⟨hnext, ha⟩ := hstep pre a post o hxs hknown
        obtain ⟨hall, hpost⟩ := ih (pre ++ [a]) _ (by simp [hxs]) hnext
        rw [List.flatMap_cons, execAll_append, follows_append, ha, hpost]
        exact ⟨hall, by simp⟩
  exact hrest xs [] o rfl hnil

-- Every statement is admitted, and the last of them leaves that state.
def Leads (w : Watch σ) (o : σ) (m : Script) (o' : σ) : Prop :=
  w.Follows o m ∧ w.execAll o m = o'

@[simp] theorem leads_nil {o o' : σ} : w.Leads o [] o' ↔ o = o' := by
  simp [Leads, Follows, execAll]

theorem leads_cons {o o' : σ} {s : Statement} {m : Script} :
    w.Leads o (s :: m) o' ↔ w.Admits o s ∧ w.Leads (w.exec o s) m o' := by
  rw [Leads, Follows, execAll_cons, Leads, and_assoc]

@[simp] theorem leads_singleton {o o' : σ} {s : Statement} :
    w.Leads o [s] o' ↔ w.Admits o s ∧ w.exec o s = o' := by
  rw [leads_cons, leads_nil]

theorem leads_append {o o'' : σ} {first second : Script} :
    w.Leads o (first ++ second) o'' ↔ ∃ o', w.Leads o first o' ∧ w.Leads o' second o'' := by
  simp only [Leads, follows_append, execAll_append]
  constructor
  · rintro ⟨⟨hfirst, hsecond⟩, heq⟩
    exact ⟨_, ⟨hfirst, rfl⟩, hsecond, heq⟩
  · rintro ⟨o', ⟨hfirst, rfl⟩, hsecond, heq⟩
    exact ⟨⟨hfirst, hsecond⟩, heq⟩

theorem Leads.eq {o o' o'' : σ} {m : Script} (h : w.Leads o m o') (h' : w.Leads o m o'') :
    o' = o'' :=
  h.2.symm.trans h'.2

-- Statements that leave the state as it is, and are admitted in it.
theorem leads_of_forall {o : σ} {m : Script} (h : ∀ s ∈ m, w.Admits o s ∧ w.exec o s = o) :
    w.Leads o m o := by
  induction m with
  | nil => exact leads_nil.mpr rfl
  | cons s m ih =>
      obtain ⟨hadmits, hexec⟩ := h s (by simp)
      rw [leads_cons, hexec]
      exact ⟨hadmits, ih fun x hx => h x (by simp [hx])⟩

-- What is ahead is settled.
theorem leads_append_of {o o' o'' : σ} {first second : Script} (h : w.Leads o first o') :
    w.Leads o (first ++ second) o'' ↔ w.Leads o' second o'' := by
  rw [leads_append]
  constructor
  · rintro ⟨x, hx, hsecond⟩
    rwa [h.eq hx]
  · exact fun hsecond => ⟨o', h, hsecond⟩

theorem leads_flatMap {α : Type} {statements : α → Script} {xs : List α} {o : σ}
    (h : ∀ x ∈ xs, w.Leads o (statements x) o) : w.Leads o (xs.flatMap statements) o := by
  induction xs with
  | nil => exact leads_nil.mpr rfl
  | cons x xs ih =>
      rw [List.flatMap_cons, leads_append_of (h x (by simp))]
      exact ih fun y hy => h y (by simp [hy])

-- Nothing of the script counts.
def Silent (w : Watch σ) (m : Script) : Prop :=
  ∀ o, w.Leads o m o

theorem silent_of_forall {m : Script} (h : ∀ s ∈ m, ∀ o, w.Admits o s ∧ w.exec o s = o) :
    w.Silent m :=
  fun o => leads_of_forall fun s hs => h s hs o

theorem Silent.append {first second : Script} (h : w.Silent first) (h' : w.Silent second) :
    w.Silent (first ++ second) :=
  fun o => (leads_append_of (h o)).mpr (h' o)

theorem silent_flatMap {α : Type} {statements : α → Script} {xs : List α}
    (h : ∀ x ∈ xs, w.Silent (statements x)) : w.Silent (xs.flatMap statements) :=
  fun o => leads_flatMap fun x hx => h x hx o

theorem Silent.leads_iff {m : Script} (h : w.Silent m) {o o' : σ} : w.Leads o m o' ↔ o = o' :=
  ⟨fun hm => (h o).eq hm, fun heq => heq ▸ h o⟩

theorem Silent.leads_append {first second : Script} (h : w.Silent second) {o o' : σ} :
    w.Leads o (first ++ second) o' ↔ w.Leads o first o' := by
  rw [Watch.leads_append]
  constructor
  · rintro ⟨x, hx, hsecond⟩
    rwa [← h.leads_iff.mp hsecond]
  · exact fun hx => ⟨o', hx, h o'⟩

-- One member of the list counts.
theorem leads_flatMap_of_mem {α : Type} {statements : α → Script} {xs : List α} {a : α}
    (ha : a ∈ xs) (hxs : xs.Nodup) (h : ∀ x ∈ xs, x ≠ a → w.Silent (statements x)) {o o' : σ} :
    w.Leads o (xs.flatMap statements) o' ↔ w.Leads o (statements a) o' := by
  obtain ⟨l, r, rfl⟩ := List.append_of_mem ha
  rw [List.nodup_append, List.nodup_cons] at hxs
  obtain ⟨-, ⟨hr, -⟩, hl⟩ := hxs
  have hleft : w.Silent (l.flatMap statements) :=
    silent_flatMap fun x hx => h x (by simp [hx]) (hl x hx a (by simp))
  have hright : w.Silent (r.flatMap statements) :=
    silent_flatMap fun x hx => h x (by simp [hx]) fun he => hr (he ▸ hx)
  rw [List.flatMap_append, List.flatMap_cons, leads_append_of (hleft o), hright.leads_append]

end Watch

end SchemaDiff
