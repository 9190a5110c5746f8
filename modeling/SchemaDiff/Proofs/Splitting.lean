import SchemaDiff.Proofs.ClauseText
import SchemaDiff.Proofs.Concatenation
import SchemaDiff.Proofs.Exchange.Script

namespace SchemaDiff.Parser

variable {α : Type} {d : Dialect} {s u : Cursor}

section Loops

variable {step : Parser (Option α)} {a : α} {before after : List α}

theorem many_cons_eq_ok (h : many step s = .ok (a :: after) u) :
    ∃ t, step s = .ok (some a) t ∧
      (t.ahead.length < s.ahead.length ∧ many step t = .ok after u ∨
        ¬t.ahead.length < s.ahead.length ∧ after = [] ∧ u = t) := by
  rw [many] at h
  split at h
  · cases h
  · cases h
  · rename_i a' t hstep
    split at h
    · rename_i hlt
      split at h
      · rename_i rest v hrest
        cases h
        exact ⟨t, hstep, .inl ⟨hlt, hrest⟩⟩
      · cases h
    · rename_i hlt
      cases h
      exact ⟨_, hstep, .inr ⟨hlt, rfl, rfl⟩⟩

-- A loop can be stopped in front of any of its rounds and go on with other ones.
theorem many_split (hstep : Rereads False .pair step)
    (h : many step s = .ok (before ++ a :: after) u) :
    ∃ front v w, s.faces = front ++ v.faces ∧ step v = .ok (some a) w ∧
      (w.faces ≠ v.faces → many step w = .ok after u) ∧
      ∀ Y as Z, Exchange.pair v.faces Y → Steps (many step) Y as Z →
        Steps (many step) (front ++ Y) (before ++ as) Z := by
  induction before generalizing s with
  | nil =>
      obtain ⟨t, hread, hrest⟩ := many_cons_eq_ok h
      refine ⟨[], s, t, rfl, hread, fun hne => ?_, fun Y as Z _ hsteps => hsteps⟩
      obtain ⟨-, hrest⟩ | ⟨hlt, -, -⟩ := hrest
      · exact hrest
      · obtain ⟨r, hr, -, -⟩ := hstep s _ t hread
        rw [nil_of_not_lt hr hlt] at hr
        exact absurd hr.symm hne
  | cons b before ih =>
      obtain ⟨t, hread, ⟨hlt, hrest⟩ | ⟨-, hnil, -⟩⟩ := many_cons_eq_ok h
      · obtain ⟨r, hr, -, hsteps⟩ := hstep s _ t hread
        obtain ⟨front, v, w, hfront, hround, hbehind, hagain⟩ := ih hrest
        refine ⟨r ++ front, v, w, by rw [hr, hfront, List.append_assoc], hround, hbehind, ?_⟩
        intro Y as Z hY hZ
        rw [List.append_assoc]
        refine .many_cons (hsteps _ ?_) (length_lt (ne_nil_of_lt hr hlt)) (hagain Y as Z hY hZ)
        rw [hfront]
        exact Exchange.append hY front
      · simp at hnil

end Loops

section Items

variable {item : Parser α} {a : α} {before after : List α}

theorem commaItem?_eq_ok (h : commaItem? item s = .ok (some a) u) :
    ∃ f v, f.kind = .symbol .comma ∧ s.faces = f :: Cursor.faces v ∧ item v = .ok a u := by
  obtain ⟨found, v, hcomma, hrest⟩ := bind_eq_ok.mp h
  obtain ⟨rfl, f, hf, hs⟩ | ⟨rfl, -, -⟩ := consume_eq_ok (by simp) hcomma
  · obtain ⟨a, w, ha, hpure⟩ := bind_eq_ok.mp hrest
    cases hpure
    exact ⟨f, v, hf, hs, ha⟩
  · cases hrest

-- In front of an item the list can be left as it is, and go on with other items.
theorem commaSeparated_split (hitem : Rereads False .pair item)
    (h : commaSeparated item s = .ok (before ++ a :: after) u) :
    ∃ front v w, s.faces = front ++ v.faces ∧ item v = .ok a w ∧
      many (commaItem? item) w = .ok after u ∧
      ∀ X Y Z a' after', Exchange.pair v.faces (X ++ Y) → Steps item (X ++ Y) a' Y →
        Steps (many (commaItem? item)) Y after' Z →
        Steps (commaSeparated item) (front ++ (X ++ Y)) (before ++ a' :: after') Z := by
  obtain ⟨first, t, hfirst, hrest⟩ := bind_eq_ok.mp h
  obtain ⟨rest, w, hrest, hpure⟩ := bind_eq_ok.mp hrest
  replace hrest : many (commaItem? item) t = .ok rest w := hrest
  cases before with
  | nil =>
      cases hpure
      refine ⟨[], s, t, rfl, hfirst, hrest, fun X Y Z a' after' _ ha' hafter => ?_⟩
      exact .bind ha' (.bind hafter (.pure _ Z))
  | cons b before =>
      cases hpure
      obtain ⟨r, hr, -, hsteps⟩ := hitem s _ t hfirst
      obtain ⟨front, v, w, hfront, hround, hbehind, hagain⟩ :=
        many_split (hitem.commaItem? (Exchange.keeps_pair _)) hrest
      obtain ⟨f, v', hf, hv, ha⟩ := commaItem?_eq_ok hround
      have hne : w.faces ≠ v.faces := by
        obtain ⟨r', hr', -, -⟩ := hitem v' _ w ha
        intro heq
        have hlength := congrArg List.length (heq.trans (hv.trans (congrArg (f :: ·) hr')))
        simp only [List.length_cons, List.length_append] at hlength
        omega
      refine ⟨r ++ (front ++ [f]), v', w, by rw [hr, hfront, hv]; simp, ha, hbehind hne, ?_⟩
      intro X Y Z a' after' hX hsteps' hafter
      have hcomma : Steps (many (commaItem? item)) (f :: (X ++ Y)) (a' :: after') Z := by
        refine .many_cons (.commaItem? hf hsteps') ?_ hafter
        simp only [List.length_cons, List.length_append]
        omega
      have hpair : Exchange.pair v.faces (f :: (X ++ Y)) := hv ▸ Exchange.Extends.cons hX
      have hmany := hagain _ _ Z hpair hcomma
      have happend : r ++ (front ++ [f]) ++ (X ++ Y) = r ++ (front ++ f :: (X ++ Y)) := by simp
      rw [happend]
      refine .bind (hsteps _ ?_) (.bind hmany (.pure _ Z))
      rw [hfront]
      exact Exchange.append hpair front

end Items

section Statements

variable {t : CreateTable}

theorem create_eq_ok (h : create d s = .ok (.createTable t) u) :
    ∃ c k v, c.kind = .keyword .create ∧ k.kind = .keyword .table ∧
      s.faces = c :: k :: Cursor.faces v ∧ createTable d v = .ok t u := by
  obtain ⟨_, v, hcreate, hrest₁⟩ := bind_eq_ok.mp h
  obtain ⟨c, hc, hs⟩ := expectKeyword_eq_ok hcreate
  obtain ⟨isUnique, v₁, hunique, hrest₂⟩ := bind_eq_ok.mp hrest₁
  obtain ⟨rfl, -⟩ | ⟨rfl, -, rfl⟩ := consume_eq_ok (by simp) hunique
  · obtain ⟨_, w, -, hindex⟩ := bind_eq_ok.mp hrest₂
    obtain ⟨index, w', -, hpure⟩ := bind_eq_ok.mp hindex
    cases hpure
  obtain ⟨isIndex, v₂, hindex, hrest₃⟩ := bind_eq_ok.mp hrest₂
  obtain ⟨rfl, -⟩ | ⟨rfl, -, rfl⟩ := consume_eq_ok (by simp) hindex
  · obtain ⟨index, w, -, hpure⟩ := bind_eq_ok.mp hrest₃
    cases hpure
  obtain ⟨isTable, v₃, htable, hrest₄⟩ := bind_eq_ok.mp hrest₃
  obtain ⟨rfl, k, hk, hv⟩ | ⟨rfl, -, -⟩ := consume_eq_ok (by simp) htable
  · obtain ⟨t, w, ht, hpure⟩ := bind_eq_ok.mp hrest₄
    cases hpure
    exact ⟨c, k, _, hc, hk, by rw [hs, hv], ht⟩
  · cases hrest₄

theorem not_mem_alterTable {l : List Statement} (h : alterTable d s = .ok l u) :
    Statement.createTable t ∉ l := by
  obtain ⟨_, v, -, hrest⟩ := bind_eq_ok.mp h
  obtain ⟨_, v, -, hrest⟩ := bind_eq_ok.mp hrest
  obtain ⟨name, v, -, hrest⟩ := bind_eq_ok.mp hrest
  obtain ⟨changes, v, -, hpure⟩ := bind_eq_ok.mp hrest
  cases hpure
  simp

theorem drop_ne_createTable {statement : Statement} (h : drop s = .ok statement u) :
    statement ≠ .createTable t := by
  rintro rfl
  obtain ⟨_, v, -, hrest⟩ := bind_eq_ok.mp h
  obtain ⟨isTable, v, -, hrest⟩ := bind_eq_ok.mp hrest
  cases isTable with
  | true =>
      obtain ⟨found, v, -, hrest⟩ := bind_eq_ok.mp hrest
      obtain ⟨name, v, -, hpure⟩ := bind_eq_ok.mp hrest
      cases hpure
  | false =>
      obtain ⟨isIndex, v, -, hrest⟩ := bind_eq_ok.mp hrest
      cases isIndex with
      | false => cases hrest
      | true =>
          obtain ⟨found, v, -, hrest⟩ := bind_eq_ok.mp hrest
          obtain ⟨name, v, -, hrest⟩ := bind_eq_ok.mp hrest
          obtain ⟨onTable, v, -, hrest⟩ := bind_eq_ok.mp hrest
          cases onTable with
          | true =>
              obtain ⟨table, v, -, hpure⟩ := bind_eq_ok.mp hrest
              cases hpure
          | false => cases hrest

-- A table stands in a statement of its own, and so does another table in its place.
theorem statements?_split {l : List Statement} (h : statements? d s = .ok (some l) u)
    (ht : .createTable t ∈ l) :
    l = [.createTable t] ∧ u.AtEnd ∧
      ∃ c k v, s.faces = c :: k :: Cursor.faces v ∧ createTable d v = .ok t u ∧
        ∀ X t', Steps (createTable d) X t' u.faces →
          Steps (statements? d) (c :: k :: X) (some [.createTable t']) u.faces := by
  obtain ⟨token, v, htoken, hrest⟩ := bind_eq_ok.mp h
  cases htoken
  generalize hkind : s.current.kind = kind at hrest
  split at hrest
  · cases hrest
  · obtain ⟨_, v, -, hpure⟩ := bind_eq_ok.mp hrest
    cases hpure
    simp at ht
  · obtain ⟨statement, v, hcreate, hrest⟩ := bind_eq_ok.mp hrest
    obtain ⟨_, w, hend, hpure⟩ := bind_eq_ok.mp hrest
    cases hpure
    obtain rfl := List.mem_singleton.mp ht
    obtain ⟨c, k, w, hc, hk, hs, hcreated⟩ := create_eq_ok hcreate
    obtain ⟨rfl, hatEnd⟩ := statementEnd_eq_ok hend
    refine ⟨rfl, hatEnd, c, k, w, hs, hcreated, fun X t' hX => .current fun token htoken => ?_⟩
    have hkind : token.kind = .keyword .create := (congrArg Face.kind htoken).trans hc
    rw [hkind]
    have hnot (k' : Keyword) (hk' : k' ≠ .table) : (Face.first (k :: X)).kind ≠ .keyword k' := by
      rw [Face.first_cons, hk]
      simpa using hk'.symm
    have hread : Steps (create d) (c :: k :: X) (.createTable t') u.faces :=
      .bind (.expectKeyword hc) (.bind (.consume_false (hnot .unique (by decide)))
        (.bind (.consume_false (hnot .index (by decide)))
          (.bind (.consume_true hk) (.bind hX (.pure _ _)))))
    exact .bind hread (.bind (Rereads.statementEnd.steps hend (Exchange.pair_refl _)) (.pure _ _))
  · obtain ⟨statements, v, halter, hrest⟩ := bind_eq_ok.mp hrest
    obtain ⟨_, w, -, hpure⟩ := bind_eq_ok.mp hrest
    cases hpure
    exact absurd ht (not_mem_alterTable halter)
  · obtain ⟨statement, v, hdrop, hrest⟩ := bind_eq_ok.mp hrest
    obtain ⟨_, w, -, hpure⟩ := bind_eq_ok.mp hrest
    cases hpure
    exact absurd (List.mem_singleton.mp ht).symm (drop_ne_createTable hdrop)
  · cases hrest

end Statements

section Scripts

theorem exists_of_flatten_eq {lists : List (List α)} {before after : List α} {a : α}
    (h : lists.flatten = before ++ a :: after) :
    ∃ lists₁ l₁ l₂ lists₂, lists = lists₁ ++ (l₁ ++ a :: l₂) :: lists₂ ∧
      lists₁.flatten ++ l₁ = before ∧ l₂ ++ lists₂.flatten = after := by
  rcases List.flatten_eq_append_iff.mp h with
    ⟨lists₁, rest, rfl, rfl, hrest⟩ | ⟨lists₁, l₁, b, l₂, lists₂, rfl, rfl, hrest⟩
  · obtain ⟨empty, l₂, lists₂, rfl, hempty, rfl⟩ := List.flatten_eq_cons_iff.mp hrest.symm
    refine ⟨lists₁ ++ empty, [], l₂, lists₂, by simp, ?_, rfl⟩
    rw [List.flatten_append, List.flatten_eq_nil_iff.mpr hempty]
    simp
  · obtain ⟨rfl, rfl⟩ := List.cons.inj hrest
    exact ⟨lists₁, l₁, l₂, lists₂, rfl, rfl, rfl⟩

variable {x : String} {s₁ s₂ : Script} {t : CreateTable}

-- A text is read again with another table in the place of one.
theorem parse_split (h : Script.parse d x = .ok (s₁ ++ .createTable t :: s₂)) :
    ∃ front v w, (Cursor.ofText d x).faces = front ++ Cursor.faces v ∧ createTable d v = .ok t w ∧
      w.AtEnd ∧ ∀ X t' y, Steps (createTable d) X t' w.faces → (Cursor.ofText d y).faces = front ++ X →
        Script.parse d y = .ok (s₁ ++ .createTable t' :: s₂) := by
  rw [Script.parse_eq] at h
  split at h
  · rename_i lists u hmany
    obtain ⟨lists₁, l₁, l₂, lists₂, rfl, rfl, rfl⟩ := exists_of_flatten_eq (Except.ok.inj h)
    obtain ⟨front, v, w, hfront, hstatement, hbehind, hagain⟩ := many_split Rereads.statements? hmany
    obtain ⟨hl, hatEnd, c, k, v', hv, hcreated, hsteps⟩ :=
      statements?_split (t := t) hstatement (by simp)
    obtain ⟨rfl, rfl⟩ : l₁ = [] ∧ l₂ = [] := by simpa [List.append_eq_singleton_iff] using hl
    obtain ⟨r, hr, -, -⟩ := Rereads.createTable v' t w hcreated
    have hne : w.faces ≠ v.faces := by
      intro heq
      have hlength := congrArg List.length heq
      simp only [hv, hr, List.length_cons, List.length_append] at hlength
      omega
    refine ⟨front ++ [c, k], v', w, by rw [hfront, hv]; simp, hcreated, hatEnd,
      fun X t' y hX hy => ?_⟩
    have hlength := Rereads.createTable.length_le hX
    have hstep : Steps (many (statements? d)) (c :: k :: X) ([.createTable t'] :: lists₂) u.faces := by
      refine .many_cons (hsteps X t' hX) ?_
        ((Rereads.many Rereads.statements?).steps (hbehind hne) (Exchange.pair_refl _))
      simp only [List.length_cons]
      omega
    obtain ⟨u', hall, -⟩ := hagain _ _ _ (hv ▸ ⟨rfl, fun _ => rfl⟩) hstep (.ofText d y)
      (by rw [hy]; simp)
    rw [Script.parse_eq, hall]
    simp
  · cases h

end Scripts

end SchemaDiff.Parser
