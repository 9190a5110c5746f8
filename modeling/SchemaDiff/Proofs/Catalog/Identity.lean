import SchemaDiff.Proofs.Catalog.Surroundings
import SchemaDiff.Proofs.Name

namespace SchemaDiff

-- The name holds none of the characters that the identity of an index puts between names.
def Plain (name : String) : Prop :=
  ∀ c ∈ [' ', ',', '(', ')'], c ∉ name.toList

instance : DecidablePred Plain :=
  fun name => List.decidableBAll (fun c => c ∉ name.toList) [' ', ',', '(', ')']

-- A text up to the first of some characters is told by the whole text.
theorem append_cons_inj {c : Char} {x y x' y' : List Char} (hx : c ∉ x) (hy : c ∉ y)
    (h : x ++ c :: x' = y ++ c :: y') : x = y ∧ x' = y' := by
  induction x generalizing y with
  | nil =>
      cases y with
      | nil => exact ⟨rfl, by simpa using h⟩
      | cons e y =>
          obtain ⟨rfl, -⟩ := List.cons.inj h
          exact absurd (by simp) hy
  | cons e x ih =>
      cases y with
      | nil =>
          obtain ⟨rfl, -⟩ := List.cons.inj h
          exact absurd (by simp) hx
      | cons e' y =>
          obtain ⟨rfl, htail⟩ := List.cons.inj h
          obtain ⟨rfl, hrest⟩ := ih (fun hm => hx (by simp [hm])) (fun hm => hy (by simp [hm])) htail
          exact ⟨rfl, hrest⟩

namespace ColumnIdent

-- A column in a list, up to the comma or parenthesis behind it.
theorem notMem_identity {c : ColumnIdent} (h : Plain c.ident.name) :
    ',' ∉ c.identity.toList ∧ ')' ∉ c.identity.toList := by
  have hcomma := h ',' (by simp)
  have hparen := h ')' (by simp)
  cases ho : c.order <;> simp [identity, spelled, ho, hcomma, hparen]

theorem identity_inj {c c' : ColumnIdent} (h : Plain c.ident.name) (h' : Plain c'.ident.name)
    (heq : c.identity = c'.identity) : (c.ident.name, c.order) = (c'.ident.name, c'.order) := by
  have hblank := h ' ' (by simp)
  have hblank' := h' ' ' (by simp)
  cases ho : c.order <;> cases ho' : c'.order <;> simp only [identity, spelled, ho, ho'] at heq
  · rw [heq]
  · rw [heq] at hblank
    simp at hblank
  · rw [← heq] at hblank'
    simp at hblank'
  · have htext := congrArg String.toList heq
    rw [String.toList_append, String.toList_append, List.append_cancel_right_eq] at htext
    rw [String.toList_inj.mp htext]

theorem toList_join_cons (columns : List ColumnIdent) (c : ColumnIdent) :
    (String.join ((c :: columns).map fun c => ", " ++ c.identity)).toList =
      ',' :: ' ' :: (c.identity.toList ++
        (String.join (columns.map fun c => ", " ++ c.identity)).toList) := by
  simp

theorem columnsOf_of_join {xs ys : List ColumnIdent} (hx : ∀ c ∈ xs, Plain c.ident.name)
    (hy : ∀ c ∈ ys, Plain c.ident.name) {x y : ColumnIdent} (hpx : Plain x.ident.name)
    (hpy : Plain y.ident.name)
    (h : x.identity.toList ++ (String.join (xs.map fun c => ", " ++ c.identity)).toList =
      y.identity.toList ++ (String.join (ys.map fun c => ", " ++ c.identity)).toList) :
    IndexState.columnsOf (x :: xs) = IndexState.columnsOf (y :: ys) := by
  induction xs generalizing ys x y with
  | nil =>
      cases ys with
      | nil =>
          have heq : x.identity = y.identity := by simpa [String.toList_inj] using h
          simpa [IndexState.columnsOf] using identity_inj hpx hpy heq
      | cons c ys =>
          refine absurd ?_ (notMem_identity hpx).1
          rw [toList_join_cons, List.map_nil, String.join_nil, String.toList_empty,
            List.append_nil] at h
          simp [h]
  | cons c xs ih =>
      cases ys with
      | nil =>
          refine absurd ?_ (notMem_identity hpy).1
          rw [toList_join_cons, List.map_nil, String.join_nil, String.toList_empty,
            List.append_nil] at h
          simp [← h]
      | cons e ys =>
          rw [toList_join_cons, toList_join_cons] at h
          obtain ⟨hhead, htail⟩ := append_cons_inj (notMem_identity hpx).1 (notMem_identity hpy).1 h
          have hrest := ih (fun k hk => hx k (by simp [hk])) (fun k hk => hy k (by simp [hk]))
            (hx c (by simp)) (hy e (by simp)) (List.cons.inj htail).2
          have hfirst := identity_inj hpx hpy (String.toList_inj.mp hhead)
          simp only [IndexState.columnsOf, List.map_cons] at hrest ⊢
          rw [hfirst, hrest]

theorem notMem_join {xs : List ColumnIdent} (h : ∀ c ∈ xs, Plain c.ident.name) :
    ')' ∉ (String.join (xs.map fun c => ", " ++ c.identity)).toList := by
  simpa using fun c hc => (notMem_identity (h c hc)).2

-- Columns that an index can be over.
structure ListPlain (columns : List ColumnIdent) : Prop where
  ne_nil : columns ≠ []
  plain : ∀ c ∈ columns, Plain c.ident.name

theorem listSpelled_inj {xs ys : List ColumnIdent} {rest rest' : List Char} (hx : ListPlain xs)
    (hy : ListPlain ys) (h : (listSpelled Ident.name xs).toList ++ rest =
      (listSpelled Ident.name ys).toList ++ rest') :
    IndexState.columnsOf xs = IndexState.columnsOf ys ∧ rest = rest' := by
  obtain ⟨hxne, hx⟩ := hx
  obtain ⟨hyne, hy⟩ := hy
  cases xs with
  | nil => exact absurd rfl hxne
  | cons x xs =>
      cases ys with
      | nil => exact absurd rfl hyne
      | cons y ys =>
          have hinner : ∀ {z : ColumnIdent} {zs : List ColumnIdent} {rest : List Char},
              (listSpelled Ident.name (z :: zs)).toList ++ rest = '(' :: ((z.identity.toList ++
                (String.join (zs.map fun c => ", " ++ c.identity)).toList) ++ ')' :: rest) := by
            intro z zs rest
            have hmap : zs.map ((", " ++ ·) ∘ spelled Ident.name) =
                zs.map fun c => ", " ++ c.identity := rfl
            rw [listSpelled, List.map_cons, intercalate_cons, List.map_map, hmap]
            simp [identity]
          have hout : ∀ {z : ColumnIdent} {zs : List ColumnIdent},
              (∀ c ∈ z :: zs, Plain c.ident.name) → ')' ∉ z.identity.toList ++
                (String.join (zs.map fun c => ", " ++ c.identity)).toList := by
            intro z zs hz
            rw [List.mem_append, not_or]
            exact ⟨(notMem_identity (hz z (by simp))).2, notMem_join fun c hc => hz c (by simp [hc])⟩
          rw [hinner, hinner] at h
          obtain ⟨hcolumns, hrest⟩ := append_cons_inj (hout hx) (hout hy) (List.cons.inj h).2
          exact ⟨columnsOf_of_join (fun c hc => hx c (by simp [hc])) (fun c hc => hy c (by simp [hc]))
            (hx x (by simp)) (hy y (by simp)) hcolumns, hrest⟩

-- The other way around, the text of a list says no more than its names and orders.
theorem listSpelled_congr {xs ys : List ColumnIdent}
    (h : IndexState.columnsOf xs = IndexState.columnsOf ys) :
    listSpelled Ident.name xs = listSpelled Ident.name ys := by
  have hspelled : ∀ zs : List ColumnIdent, zs.map (spelled Ident.name) =
      (IndexState.columnsOf zs).map fun c => spelled Ident.name ⟨.bare c.1, c.2⟩ := by
    intro zs
    rw [IndexState.columnsOf, List.map_map]
    exact List.map_congr_left fun c _ => by cases ho : c.order <;> simp [spelled, ho, Ident.bare]
  simp only [listSpelled, hspelled, h]

end ColumnIdent

namespace Rule

-- The first words tell which rules are indexes.
theorem isIndex_of_identity {r r' : Rule} (h : r.identity = r'.identity) :
    r.isIndex = r'.isIndex := by
  have hfirst := congrArg (fun s => s.toList[0]?) h
  have heighth := congrArg (fun s => s.toList[7]?) h
  cases r with
  | index isUnique columns =>
      cases r' with
      | index _ _ => rfl
      | _ => cases isUnique <;>
          simp [identity, indexKind, ColumnIdent.listSpelled] at hfirst heighth
  | _ =>
      cases r' with
      | index isUnique columns => cases isUnique <;>
          simp [identity, indexKind, ColumnIdent.listSpelled] at hfirst heighth
      | _ => rfl

theorem index_inj {isUnique isUnique' : Bool} {xs ys : List ColumnIdent}
    (hx : ColumnIdent.ListPlain xs) (hy : ColumnIdent.ListPlain ys)
    (h : (index isUnique xs).identity = (index isUnique' ys).identity) :
    isUnique = isUnique' ∧ IndexState.columnsOf xs = IndexState.columnsOf ys := by
  have hkind : isUnique = isUnique' := by
    have hfirst := congrArg (fun s => s.toList[0]?) h
    cases isUnique <;> cases isUnique' <;> simp [identity, indexKind] at hfirst ⊢
  subst hkind
  have htext := congrArg String.toList h
  simp only [identity, String.toList_append, List.append_assoc, List.append_cancel_left_eq] at htext
  have hlist : (ColumnIdent.listSpelled Ident.name xs).toList ++ [] =
      (ColumnIdent.listSpelled Ident.name ys).toList ++ [] := by
    simpa using htext
  exact ⟨rfl, (ColumnIdent.listSpelled_inj hx hy hlist).1⟩

end Rule

namespace Constraint

def PlainIndex (c : Constraint) : Prop :=
  ∀ isUnique columns, c.rule = .index isUnique columns → ColumnIdent.ListPlain columns

theorem same_of_plain {old new : Constraint} (hold : old.PlainIndex) (hnew : new.PlainIndex) :
    Same old new := by
  intro hname hdefinition
  have hindex : old.isIndex = new.isIndex := Rule.isIndex_of_identity hdefinition
  cases hi : old.isIndex with
  | false =>
      have hi' : new.isIndex = false := hindex ▸ hi
      refine ⟨?_, fun table => ?_⟩
      · rw [entryOf?_of_not_isIndex hi, entryOf?_of_not_isIndex hi', hname, hdefinition]
      · rw [indexEntryOf?_of_not_isIndex table hi, indexEntryOf?_of_not_isIndex table hi']
  | true =>
      have hi' : new.isIndex = true := hindex ▸ hi
      obtain ⟨isUnique, xs, hrule⟩ := exists_of_isIndex hi
      obtain ⟨isUnique', ys, hrule'⟩ := exists_of_isIndex hi'
      have hidentity : (Rule.index isUnique xs).identity = (Rule.index isUnique' ys).identity := by
        rw [← hrule, ← hrule']
        exact hdefinition
      obtain ⟨rfl, hcolumns⟩ := Rule.index_inj (hold _ _ hrule) (hnew _ _ hrule') hidentity
      refine ⟨by rw [entryOf?_of_isIndex hi, entryOf?_of_isIndex hi'], fun table => ?_⟩
      simp only [indexEntryOf?, hrule, hrule', hname, IndexState.inline, hcolumns]

-- Two constraints that are one index are one constraint.
theorem eq_of_indexEntry {c k : Constraint} {table table' : String} {e : String × IndexState}
    (hc : c.indexEntryOf? table = some e) (hk : k.indexEntryOf? table' = some e) :
    c.name.name = k.name.name ∧ c.definition = k.definition := by
  refine ⟨(indexEntryOf?_name hc).symm.trans (indexEntryOf?_name hk), ?_⟩
  obtain ⟨isUnique, xs, hrule⟩ := exists_of_isIndex (isIndex_of_indexEntryOf? hc)
  obtain ⟨isUnique', ys, hrule'⟩ := exists_of_isIndex (isIndex_of_indexEntryOf? hk)
  simp only [indexEntryOf?, hrule] at hc
  simp only [indexEntryOf?, hrule'] at hk
  obtain ⟨-, hstate⟩ := Prod.mk.inj (Option.some.inj (hc.trans hk.symm))
  obtain ⟨-, hunique, -, hcolumns, -⟩ := IndexState.mk.inj hstate
  rw [definition, definition, hrule, hrule', Rule.identity, Rule.identity, hunique,
    ColumnIdent.listSpelled_congr hcolumns]

end Constraint

theorem notMem_upper {name : String} (h : Plain name) : ' ' ∉ (Text.upper name).toList := by
  have hblank : ∀ c : Char, c.toUpper = ' ' → c = ' ' :=
    Text.toUpper_cases (P := fun c => c.toUpper = ' ' → c = ' ') (by decide)
      fun c hc h => by rwa [hc] at h
  rw [Text.toList_upper, List.mem_map]
  rintro ⟨c, hc, hupper⟩
  exact h ' ' (by simp) (hblank c hupper ▸ hc)

namespace CreateIndex

structure PlainNames (i : CreateIndex) : Prop where
  name : Plain i.name.identity
  table : Plain i.table.identity
  method : ∀ m ∈ i.method, Plain m.name
  columns : ColumnIdent.ListPlain i.columns

def predicateText (i : CreateIndex) : List Char :=
  (i.predicate.elim "" (" WHERE " ++ ·.identity)).toList

-- What the identity says behind the name of the table and a blank.
def behindTable (i : CreateIndex) : List Char :=
  i.method.elim [] (fun m => "USING ".toList ++ ((Text.upper m.name).toList ++ [' '])) ++
    ((ColumnIdent.listSpelled Ident.name i.columns).toList ++ i.predicateText)

theorem toList_identity (i : CreateIndex) :
    i.identity.toList = "CREATE ".toList ++ ((Rule.indexKind i.unique).toList ++
      ' ' :: (i.name.identity.toList ++ ' ' :: 'O' :: 'N' :: ' ' ::
        (i.table.identity.toList ++ ' ' :: i.behindTable))) := by
  cases hm : i.method <;> simp [identity, kind, behindTable, predicateText, hm]

theorem predicate_inj {i j : CreateIndex} (h : i.predicateText = j.predicateText) :
    i.predicate.map Expr.identity = j.predicate.map Expr.identity := by
  unfold predicateText at h
  cases hi : i.predicate <;> cases hj : j.predicate <;> simp [hi, hj] at h ⊢
  exact String.toList_inj.mp h

theorem behindTable_inj {i j : CreateIndex} (hi : i.PlainNames) (hj : j.PlainNames)
    (h : i.behindTable = j.behindTable) :
    i.method.map (fun m => Text.upper m.name) = j.method.map (fun m => Text.upper m.name) ∧
      IndexState.columnsOf i.columns = IndexState.columnsOf j.columns ∧
      i.predicate.map Expr.identity = j.predicate.map Expr.identity := by
  have hlist : ∀ {k : CreateIndex}, ∃ rest,
      (ColumnIdent.listSpelled Ident.name k.columns).toList ++ k.predicateText = '(' :: rest := by
    intro k
    exact ⟨_, by simp [ColumnIdent.listSpelled]; rfl⟩
  have htail : (ColumnIdent.listSpelled Ident.name i.columns).toList ++ i.predicateText =
        (ColumnIdent.listSpelled Ident.name j.columns).toList ++ j.predicateText →
      IndexState.columnsOf i.columns = IndexState.columnsOf j.columns ∧
        i.predicateText = j.predicateText :=
    ColumnIdent.listSpelled_inj hi.columns hj.columns
  unfold behindTable at h
  cases hm : i.method with
  | none =>
      cases hm' : j.method with
      | none =>
          obtain ⟨hcolumns, hpredicate⟩ := htail (by simpa [hm, hm'] using h)
          exact ⟨rfl, hcolumns, predicate_inj hpredicate⟩
      | some m =>
          obtain ⟨rest, hrest⟩ := hlist (k := i)
          rw [hm, hm', Option.elim_none, List.nil_append, hrest] at h
          simp at h
  | some m =>
      cases hm' : j.method with
      | none =>
          obtain ⟨rest, hrest⟩ := hlist (k := j)
          rw [hm, hm', Option.elim_none, List.nil_append, hrest] at h
          simp at h
      | some m' =>
          simp only [hm, hm', Option.elim_some, List.append_assoc, List.append_cancel_left_eq,
            List.singleton_append] at h
          obtain ⟨hupper, hrest⟩ := append_cons_inj (notMem_upper (hi.method m hm))
            (notMem_upper (hj.method m' hm')) h
          obtain ⟨hcolumns, hpredicate⟩ := htail hrest
          exact ⟨congrArg some (String.toList_inj.mp hupper), hcolumns, predicate_inj hpredicate⟩

-- Two indexes of one identity are one index to a database.
theorem of_identity {i j : CreateIndex} (hi : i.PlainNames) (hj : j.PlainNames)
    (h : i.identity = j.identity) :
    i.name.identity = j.name.identity ∧ IndexState.of i = IndexState.of j := by
  have htext := congrArg String.toList h
  rw [toList_identity, toList_identity] at htext
  have hunique : i.unique = j.unique := by
    have hkind := congrArg (fun cs => cs[7]?) htext
    cases hu : i.unique <;> cases hu' : j.unique <;>
      simp [hu, hu', Rule.indexKind] at hkind ⊢
  rw [hunique] at htext
  simp only [List.append_cancel_left_eq, List.cons.injEq, true_and] at htext
  obtain ⟨hname, hbehind⟩ := append_cons_inj (hi.name ' ' (by simp)) (hj.name ' ' (by simp)) htext
  simp only [List.cons.injEq, true_and] at hbehind
  obtain ⟨htable, hrest⟩ := append_cons_inj (hi.table ' ' (by simp)) (hj.table ' ' (by simp)) hbehind
  obtain ⟨hmethod, hcolumns, hpredicate⟩ := behindTable_inj hi hj hrest
  refine ⟨String.toList_inj.mp hname, ?_⟩
  simp only [IndexState.of, hunique, String.toList_inj.mp htable, hmethod, hcolumns, hpredicate]

theorem identity_eq_of_state {i j : CreateIndex} (hname : i.name.identity = j.name.identity)
    (h : IndexState.of i = IndexState.of j) : i.identity = j.identity := by
  obtain ⟨htable, hunique, hmethod, hcolumns, hpredicate⟩ := IndexState.mk.inj h
  have hmethods : ∀ k : CreateIndex, (k.method.elim "" fun m => " USING " ++ Text.upper m.name) =
      (k.method.map fun m => Text.upper m.name).elim "" (" USING " ++ ·) := by
    intro k
    cases k.method <;> rfl
  have hpredicates : ∀ k : CreateIndex, k.predicate.elim "" (" WHERE " ++ ·.identity) =
      (k.predicate.map Expr.identity).elim "" (" WHERE " ++ ·) := by
    intro k
    cases k.predicate <;> rfl
  simp only [identity, kind, hname, htable, hunique, hmethods, hmethod, hpredicates, hpredicate,
    ColumnIdent.listSpelled_congr hcolumns]

end CreateIndex

end SchemaDiff
