import SchemaDiff.Proofs.Migration.Refused

namespace SchemaDiff.Migration

open SchemaObject Step

theorem objects_append (first second : Script) :
    objects (first ++ second) = objects first ++ objects second :=
  List.filterMap_append

theorem objectRefusals_append (first second : Script) :
    objectRefusals (first ++ second) = objectRefusals first ++ objectRefusals second :=
  List.filterMap_append

-- No object of some schemas has the kind and name of an object of some others.
def Unrelated (first second : Script) : Prop :=
  ∀ x ∈ objects first, ∀ y ∈ objects second, x.key ≠ y.key

instance (first second : Script) : Decidable (Unrelated first second) :=
  inferInstanceAs (Decidable (∀ x ∈ objects first, ∀ y ∈ objects second, x.key ≠ y.key))

namespace SchemaPair

-- Two runs that do the same about an object.
structure SameFor (x : SchemaObject) (p q : SchemaPair) : Prop where
  dropped : p.isDropped x = q.isDropped x
  found : p.old? x.key = q.old? x.key
  altered : p.alterSteps x = q.alterSteps x

-- What is planned for an object depends on nothing but what is found under its key.
theorem SameFor.of_lookup {p q : SchemaPair} {x : SchemaObject} (hdialect : p.dialect = q.dialect)
    (hoptions : p.options = q.options) (hdefault : q.options = .default)
    (hold : p.old? x.key = q.old? x.key) (hnew : p.new? x.key = q.new? x.key) :
    SameFor x p q := by
  have hchanged : ∀ old new, p.indexChanged old new = q.indexChanged old new := by
    intro old new
    simp only [indexChanged, hdialect, hoptions]
  refine ⟨?_, hold, ?_⟩
  · unfold isDropped
    rw [oldKey_eq (hoptions.trans hdefault), oldKey_eq hdefault, hnew]
    simp only [hchanged]
  · unfold alterSteps
    rw [hold]
    simp only [hchanged, tablePair, hdialect, hoptions]

-- A run without hints.
def unhinted (d : Dialect) (before after : Script) : SchemaPair :=
  ⟨d, .default, before, after⟩

variable {d : Dialect} {b₁ b₂ a₁ a₂ : Script} {k : ObjectKey} {x : SchemaObject}

-- The last object of a key counts, and so the second part comes first.
theorem old?_append : (unhinted d (b₁ ++ b₂) (a₁ ++ a₂)).old? k =
    ((unhinted d b₂ a₂).old? k).or ((unhinted d b₁ a₁).old? k) := by
  have hkey : ∀ b a, (unhinted d b a).old? k = (objects b).reverse.find? (·.key == k) := by
    intro b a
    simp only [old?, oldKey_eq (p := unhinted d b a) rfl]
    rfl
  rw [hkey, hkey, hkey, objects_append, List.reverse_append, List.find?_append]

theorem new?_append : (unhinted d (b₁ ++ b₂) (a₁ ++ a₂)).new? k =
    ((unhinted d b₂ a₂).new? k).or ((unhinted d b₁ a₁).new? k) := by
  have hkey : ∀ b a, (unhinted d b a).new? k = (objects a).reverse.find? (·.key == k) :=
    fun b a => rfl
  rw [hkey, hkey, hkey, objects_append, List.reverse_append, List.find?_append]

theorem old?_eq_none_of {b a : Script} (h : ∀ y ∈ objects b, y.key ≠ k) :
    (unhinted d b a).old? k = none := by
  simp only [old?, oldKey_eq (p := unhinted d b a) rfl]
  simpa [unhinted] using h

theorem new?_eq_none_of {b a : Script} (h : ∀ y ∈ objects a, y.key ≠ k) :
    (unhinted d b a).new? k = none :=
  new?_eq_none.mpr h

section Unrelated

variable (h : Unrelated (b₁ ++ a₁) (b₂ ++ a₂))
include h

-- Nothing is found in one part under the keys of the other, so each part is treated in the whole
-- as it is on its own.
theorem sameFor_first (hx : x ∈ objects b₁ ∨ x ∈ objects a₁) :
    SameFor x (unhinted d (b₁ ++ b₂) (a₁ ++ a₂)) (unhinted d b₁ a₁) := by
  have hmem : x ∈ objects (b₁ ++ a₁) := by rwa [objects_append, List.mem_append]
  have happart : ∀ y ∈ objects b₂ ++ objects a₂, y.key ≠ x.key := by
    rw [← objects_append]
    exact fun y hy => (h x hmem y hy).symm
  rw [List.forall_mem_append] at happart
  refine .of_lookup rfl rfl rfl ?_ ?_
  · rw [old?_append, old?_eq_none_of happart.1, Option.none_or]
  · rw [new?_append, new?_eq_none_of happart.2, Option.none_or]

theorem sameFor_second (hx : x ∈ objects b₂ ∨ x ∈ objects a₂) :
    SameFor x (unhinted d (b₁ ++ b₂) (a₁ ++ a₂)) (unhinted d b₂ a₂) := by
  have hmem : x ∈ objects (b₂ ++ a₂) := by rwa [objects_append, List.mem_append]
  have happart : ∀ y ∈ objects b₁ ++ objects a₁, y.key ≠ x.key := by
    rw [← objects_append]
    exact fun y hy => h y hy x hmem
  rw [List.forall_mem_append] at happart
  refine .of_lookup rfl rfl rfl ?_ ?_
  · rw [old?_append, old?_eq_none_of happart.1, Option.or_none]
  · rw [new?_append, new?_eq_none_of happart.2, Option.or_none]

-- Drops go against the order of the old schema, so those of the second part come first.
theorem drops_append : (unhinted d (b₁ ++ b₂) (a₁ ++ a₂)).drops =
    (unhinted d b₂ a₂).drops ++ (unhinted d b₁ a₁).drops := by
  have hbefore : objects (unhinted d (b₁ ++ b₂) (a₁ ++ a₂)).before = objects b₁ ++ objects b₂ :=
    objects_append b₁ b₂
  rw [drops, hbefore, List.reverse_append, List.filter_append, List.map_append,
    List.filter_congr fun x hx => (sameFor_first h (.inl (List.mem_reverse.mp hx))).dropped,
    List.filter_congr fun x hx => (sameFor_second h (.inl (List.mem_reverse.mp hx))).dropped]
  rfl

theorem creates_append : (unhinted d (b₁ ++ b₂) (a₁ ++ a₂)).creates =
    (unhinted d b₁ a₁).creates ++ (unhinted d b₂ a₂).creates := by
  have hafter : objects (unhinted d (b₁ ++ b₂) (a₁ ++ a₂)).after = objects a₁ ++ objects a₂ :=
    objects_append a₁ a₂
  rw [creates, hafter, List.filter_append, List.map_append,
    List.filter_congr fun x hx => congrArg Option.isNone (sameFor_first h (.inr hx)).found,
    List.filter_congr fun x hx => congrArg Option.isNone (sameFor_second h (.inr hx)).found]
  rfl

theorem alters_append : (unhinted d (b₁ ++ b₂) (a₁ ++ a₂)).alters =
    (unhinted d b₁ a₁).alters ++ (unhinted d b₂ a₂).alters := by
  have hafter : objects (unhinted d (b₁ ++ b₂) (a₁ ++ a₂)).after = objects a₁ ++ objects a₂ :=
    objects_append a₁ a₂
  rw [alters, hafter, List.flatMap_append,
    List.flatMap_congr fun x hx => (sameFor_first h (.inr hx)).altered,
    List.flatMap_congr fun x hx => (sameFor_second h (.inr hx)).altered]
  rfl

end Unrelated

-- What refuses a run without hints stands in one of the schemas or among the alters.
theorem refuses_unhinted_iff {before after : Script} : Refuses (unhinted d before after).steps ↔
    Refuses (objectRefusals before) ∨ Refuses (objectRefusals after) ∨
      Refuses (unhinted d before after).alters := by
  have hrefusals : (unhinted d before after).refusals =
      objectRefusals before ++ objectRefusals after := by
    simp [refusals, unhinted, Options.default]
  rw [steps, hrefusals, renames_eq_nil rfl]
  simp only [refuses_append, drops, creates, not_refuses_map_emit, not_refuses_nil, or_false,
    or_assoc]

theorem statements_unhinted (d : Dialect) (before after : Script) :
    statements (unhinted d before after).steps = statements (unhinted d before after).drops ++
      (statements (unhinted d before after).creates ++
        statements (unhinted d before after).alters) :=
  statements_steps_of_default rfl

end SchemaPair

theorem Step.result_eq_ok {steps : List Step} {m : Script} :
    result steps = .ok m ↔ ¬Refuses steps ∧ statements steps = m := by
  rw [refuses_iff, result]
  cases refusal? steps <;> simp

theorem Step.result_eq_error {steps : List Step} :
    (∃ r, result steps = .error r) ↔ Refuses steps := by
  rw [refuses_iff, result]
  cases refusal? steps <;> simp

open SchemaPair

-- Schemas that have no object in common are compared side by side as each of them is on its own:
-- every pass does the one after the other, and drops go backwards. The run fails if and only if
-- one of the two fails.
theorem result_append {d : Dialect} {b₁ b₂ a₁ a₂ : Script} (h : Unrelated (b₁ ++ a₁) (b₂ ++ a₂)) :
    let first := unhinted d b₁ a₁
    let second := unhinted d b₂ a₂
    let both := unhinted d (b₁ ++ b₂) (a₁ ++ a₂)
    (∀ m₁ m₂, result first.steps = .ok m₁ → result second.steps = .ok m₂ →
      m₁ = statements first.drops ++ (statements first.creates ++ statements first.alters) ∧
      m₂ = statements second.drops ++ (statements second.creates ++ statements second.alters) ∧
      result both.steps = .ok (statements second.drops ++ statements first.drops ++
        (statements first.creates ++ statements second.creates ++
          (statements first.alters ++ statements second.alters)))) ∧
    ((∃ r, result both.steps = .error r) ↔
      (∃ r, result first.steps = .error r) ∨ ∃ r, result second.steps = .error r) := by
  intro first second both
  have hrefuses : Refuses both.steps ↔ Refuses first.steps ∨ Refuses second.steps := by
    simp only [both, first, second, refuses_unhinted_iff, objectRefusals_append, alters_append h,
      refuses_append]
    tauto
  refine ⟨fun m₁ m₂ h₁ h₂ => ?_, ?_⟩
  · obtain ⟨hfirst, rfl⟩ := result_eq_ok.mp h₁
    obtain ⟨hsecond, rfl⟩ := result_eq_ok.mp h₂
    refine ⟨statements_unhinted d b₁ a₁, statements_unhinted d b₂ a₂, result_eq_ok.mpr ⟨?_, ?_⟩⟩
    · rw [hrefuses]
      exact not_or.mpr ⟨hfirst, hsecond⟩
    · rw [statements_unhinted, drops_append h, creates_append h, alters_append h, statements_append,
        statements_append, statements_append]
  · rw [result_eq_error, result_eq_error, result_eq_error, hrefuses]

def single (table : String) (columns : List String) : Statement :=
  .createTable ⟨false, .ofIdent (.bare table),
    columns.map fun c => ⟨.bare c, ⟨"INT", [], [], 0⟩, false, none, false⟩, [], []⟩

def addition (table column : String) : Statement :=
  .alterTable (.ofIdent (.bare table))
    (.addColumn ⟨.bare column, ⟨"INT", [], [], 0⟩, false, none, false⟩)

-- In each part a table is dropped, one is created and one is changed. In the first part there are
-- two old tables of one name.
theorem result_append_single :
    let b₁ : Script := [single "a" ["x"], single "t" ["y"], single "t" ["x"]]
    let a₁ : Script := [single "b" ["x"], single "t" ["x", "y"]]
    let b₂ : Script := [single "c" ["x"], single "u" ["x", "y"]]
    let a₂ : Script := [single "d" ["x"], single "u" ["y"]]
    Unrelated (b₁ ++ a₁) (b₂ ++ a₂) ∧
      result (unhinted .postgres (b₁ ++ b₂) (a₁ ++ a₂)).steps = .ok [
        .dropTable false (.ofIdent (.bare "c")), .dropTable false (.ofIdent (.bare "a")),
        single "b" ["x"], single "d" ["x"], addition "t" "y",
        .alterTable (.ofIdent (.bare "u")) (.dropColumn (.bare "x"))] := by
  intro b₁ a₁ b₂ a₂
  have h : Unrelated (b₁ ++ a₁) (b₂ ++ a₂) := by decide
  have hfirst : result (unhinted .postgres b₁ a₁).steps = .ok [
      .dropTable false (.ofIdent (.bare "a")), single "b" ["x"], addition "t" "y"] := by
    decide +kernel
  have hsecond : result (unhinted .postgres b₂ a₂).steps = .ok [
      .dropTable false (.ofIdent (.bare "c")), single "d" ["x"],
      .alterTable (.ofIdent (.bare "u")) (.dropColumn (.bare "x"))] := by
    decide +kernel
  refine ⟨h, ((result_append h).1 _ _ hfirst hsecond).2.2.trans ?_⟩
  decide +kernel

end SchemaDiff.Migration
