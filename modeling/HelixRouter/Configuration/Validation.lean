import HelixRouter.Configuration.VersionStream

namespace HelixRouter.Configuration

variable {c : DynamicConfig} {schema : ConfigSchema} {key : String} {value : ConfigValue}

theorem bind_eq_ok_iff {α ε : Type} {x : Except ε Unit} {f : Unit → Except ε α} {a : α} :
    (x >>= f) = .ok a ↔ x = .ok () ∧ f () = .ok a := by
  cases x with
  | error e => simp [bind, Except.bind]
  | ok u => simp [bind, Except.bind]

/-- A loop that only checks goes through exactly if every check does. -/
theorem forIn_checks_iff {α ε : Type} {body : α → Unit → Except ε (ForInStep Unit)}
    (hbody : ∀ a, body a () = .ok (.yield ()) ∨ ∃ e, body a () = .error e) (l : List α) :
    forIn l () body = .ok () ↔ ∀ a ∈ l, body a () = .ok (.yield ()) := by
  induction l with
  | nil => simp [pure, Except.pure]
  | cons a l ih =>
    rw [List.forIn_cons, List.forall_mem_cons]
    rcases hbody a with hok | ⟨e, herror⟩
    · simpa [hok, bind, Except.bind] using ih
    · simp [herror, bind, Except.bind]

/-- The first loop of a reload, over the fields of the schema. -/
theorem required_loop_iff (newValues : Values) (l : List (Sigma fun _ : String => SchemaField)) :
    (forIn l () fun entry _ => if (entry.2.required && !decide (entry.1 ∈ newValues)) = true then do
        throw (ConfigError.missingRequired entry.1)
        pure (ForInStep.yield ())
      else pure (ForInStep.yield ())) = (.ok () : Except ConfigError Unit) ↔
        ∀ entry ∈ l, entry.2.required = true → entry.1 ∈ newValues := by
  refine (forIn_checks_iff (fun entry => ?_) l).trans (forall₂_congr fun entry _ => ?_)
  · by_cases h : (entry.2.required && !decide (entry.1 ∈ newValues)) = true
    · exact .inr ⟨.missingRequired entry.1, by rw [if_pos h]; rfl⟩
    · exact .inl (by rw [if_neg h]; rfl)
  · by_cases h : (entry.2.required && !decide (entry.1 ∈ newValues)) = true
    · rw [if_pos h]
      refine iff_of_false (fun hok => by cases hok) fun himp => ?_
      simp_all
    · rw [if_neg h]
      refine iff_of_true rfl fun hrequired => ?_
      simpa [hrequired] using h

/-- The second one, over the values. -/
theorem values_loop_iff (c : DynamicConfig) (l : List (Sigma fun _ : String => ConfigValue)) :
    (forIn l () fun entry _ => do
        c.checked entry.1 entry.2
        pure (ForInStep.yield ())) = (.ok () : Except ConfigError Unit) ↔
      ∀ entry ∈ l, c.checked entry.1 entry.2 = .ok () := by
  refine (forIn_checks_iff (fun entry => ?_) l).trans (forall₂_congr fun entry _ => ?_)
  · cases h : c.checked entry.1 entry.2 with
    | error e => exact .inr ⟨e, rfl⟩
    | ok u => exact .inl rfl
  · cases h : c.checked entry.1 entry.2 with
    | error e => exact iff_of_false (fun hok => by cases hok) (fun hok => by cases hok)
    | ok u => exact iff_of_true rfl rfl

/-- A required key without a value. -/
def ConfigSchema.Lacks (schema : ConfigSchema) (values : Values) (key : String) : Prop :=
  ∃ field, schema.fields.lookup key = some field ∧ field.required = true ∧ key ∉ values

namespace DynamicConfig

/-- The required fields that have no value, and then the values that fail their checks. -/
def validateAll (c : DynamicConfig) (fields : IterationOrder (Sigma fun _ : String => SchemaField))
    (values : IterationOrder (Sigma fun _ : String => ConfigValue)) (schema : ConfigSchema) :
    List ConfigError :=
  ((fields.arrange schema.fields.entries).filter fun ⟨key, field⟩ =>
    field.required && !decide (key ∈ c.values)).map (fun entry => .missingRequired entry.1) ++
  (values.arrange c.values.entries).filterMap fun ⟨key, value⟩ =>
    match schema.fields.lookup key with
    | some field =>
      match validateValue key value field with
      | .error e => some e
      | .ok () => none
    | none => none

/-- Every value passes the check of its key. -/
def Conforms (c : DynamicConfig) : Prop :=
  ∀ key value, c.values.lookup key = some value → c.checked key value = .ok ()

theorem checkedAll_ok_iff (hc : c.schema = some schema) (orders : Orders) (newValues : Values) :
    c.checkedAll orders newValues = .ok () ↔ (∀ key, ¬schema.Lacks newValues key) ∧
      ∀ key value, newValues.lookup key = some value → c.checked key value = .ok () := by
  have hfields := required_loop_iff newValues (orders.fields.arrange schema.fields.entries)
  have hvalues := values_loop_iff c (orders.newValues.arrange newValues.entries)
  have hsplit : c.checkedAll orders newValues = .ok () ↔
      (∀ entry ∈ orders.fields.arrange schema.fields.entries,
        entry.2.required = true → entry.1 ∈ newValues) ∧
      ∀ entry ∈ orders.newValues.arrange newValues.entries,
        c.checked entry.1 entry.2 = .ok () := by
    rw [← hfields, ← hvalues]
    unfold checkedAll
    simp only [hc]
    rw [bind_eq_ok_iff, bind_eq_ok_iff]
    exact and_congr_right fun _ => and_iff_left rfl
  rw [hsplit]
  simp only [IterationOrder.mem_arrange]
  refine and_congr ⟨fun h key hlacks => ?_, fun h entry hentry hrequired => ?_⟩
    ⟨fun h key value hvalue => ?_, fun h entry hentry => ?_⟩
  · obtain ⟨field, hfield, hrequired, hkey⟩ := hlacks
    exact hkey (h ⟨key, field⟩ (AList.mem_lookup_iff.mp hfield) hrequired)
  · by_contra hkey
    exact h entry.1 ⟨entry.2, AList.mem_lookup_iff.mpr hentry, hrequired, hkey⟩
  · exact h ⟨key, value⟩ (AList.mem_lookup_iff.mp hvalue)
  · exact h entry.1 entry.2 (AList.mem_lookup_iff.mpr hentry)

/-- A reload is accepted exactly if it has all that is required, and each of its values passes. -/
theorem reload_ok_iff (hc : c.schema = some schema) (orders : Orders) (newValues : Values) :
    (∃ keys, (c.reloadFromMap orders newValues).1 = .ok keys) ↔
      (∀ key, ¬schema.Lacks newValues key) ∧
        ∀ key value, newValues.lookup key = some value → c.checked key value = .ok () := by
  rw [← checkedAll_ok_iff hc orders]
  unfold reloadFromMap
  cases hall : c.checkedAll orders newValues with
  | error e => simp
  | ok u => simp

/-- A reload that is accepted stores what it was given. -/
theorem reload_of_ok {orders : Orders} {newValues : Values}
    (h : c.checkedAll orders newValues = .ok ()) :
    (c.reloadFromMap orders newValues).2.values = newValues ∧
      (c.reloadFromMap orders newValues).2.schema = c.schema := by
  unfold reloadFromMap
  simp only [h]
  split
  · exact ⟨rfl, rfl⟩
  · exact ⟨rfl, rfl⟩

def apply (c : DynamicConfig) : Op → DynamicConfig
  | .set key value => (c.set key value).2
  | .reloadFromMap orders newValues => (c.reloadFromMap orders newValues).2
  | .subscribe => c.subscribe.2
  | .drop receiver => c.dropReceiver receiver

/-- What is stored after some calls: as before, with one more value that passes its check, or what
a reload has that was accepted. -/
theorem apply_cases (c : DynamicConfig) (op : Op) : (c.apply op).schema = c.schema ∧
    ((c.apply op).values = c.values ∨
      (∃ key value, c.checked key value = .ok () ∧
        (c.apply op).values = c.values.insert key value) ∨
      ∃ orders newValues, op = .reloadFromMap orders newValues ∧
        c.checkedAll orders newValues = .ok () ∧ (c.apply op).values = newValues) := by
  cases op with
  | set key value =>
    cases hcheck : c.checked key value with
    | error e =>
      have hrefused : c.apply (.set key value) = c := by
        change (c.set key value).2 = c
        rw [set, hcheck]
      rw [hrefused]
      exact ⟨rfl, .inl rfl⟩
    | ok u =>
      have hset : c.apply (.set key value) =
          { c with values := c.values.insert key value }.bumpVersion := by
        change (c.set key value).2 = _
        rw [set, hcheck]
      rw [hset]
      exact ⟨rfl, .inr (.inl ⟨key, value, hcheck, rfl⟩)⟩
  | reloadFromMap orders newValues =>
    cases hall : c.checkedAll orders newValues with
    | error e =>
      have hrefused : c.apply (.reloadFromMap orders newValues) = c := by
        change (c.reloadFromMap orders newValues).2 = c
        unfold reloadFromMap
        rw [hall]
      rw [hrefused]
      exact ⟨rfl, .inl rfl⟩
    | ok u =>
      obtain ⟨hvalues, hschema⟩ := reload_of_ok hall
      exact ⟨hschema, .inr (.inr ⟨orders, newValues, rfl, hall, hvalues⟩)⟩
  | subscribe => exact ⟨rfl, .inl rfl⟩
  | drop receiver => exact ⟨rfl, .inl rfl⟩

theorem checked_congr {c' : DynamicConfig} (h : c'.schema = c.schema) :
    c'.checked key value = c.checked key value := by
  rw [checked, checked, h]

theorem Conforms.apply (h : c.Conforms) (hc : c.schema = some schema) (op : Op) :
    (c.apply op).Conforms := by
  obtain ⟨hschema, hsame | ⟨key, value, hcheck, hinsert⟩ | ⟨orders, newValues, -, hall, hnew⟩⟩ :=
    c.apply_cases op
  · intro key value hvalue
    rw [checked_congr hschema]
    exact h key value (hsame ▸ hvalue)
  · intro k v hvalue
    rw [checked_congr hschema]
    rw [hinsert] at hvalue
    by_cases hk : k = key
    · subst hk
      rw [AList.lookup_insert] at hvalue
      exact Option.some.inj hvalue ▸ hcheck
    · rw [AList.lookup_insert_ne hk] at hvalue
      exact h k v hvalue
  · intro k v hvalue
    rw [checked_congr hschema]
    exact ((checkedAll_ok_iff hc orders newValues).mp hall).2 k v (hnew ▸ hvalue)

/-- What is required and there stays there: a value is overwritten, and never taken away but by a
reload that has it as well. -/
theorem complete_apply (h : ∀ key, ¬schema.Lacks c.values key) (hc : c.schema = some schema)
    (op : Op) (key : String) : ¬schema.Lacks (c.apply op).values key := by
  obtain ⟨-, hsame | ⟨k, value, -, hinsert⟩ | ⟨orders, newValues, -, hall, hnew⟩⟩ :=
    c.apply_cases op
  · exact hsame ▸ h key
  · rintro ⟨field, hfield, hrequired, hkey⟩
    rw [hinsert, AList.mem_insert, not_or] at hkey
    exact h key ⟨field, hfield, hrequired, hkey.2⟩
  · exact hnew ▸ ((checkedAll_ok_iff hc orders newValues).mp hall).1 key

/-- Where all values pass, the validation finds only what is required and missing. -/
theorem mem_validateAll (h : c.Conforms) (hc : c.schema = some schema)
    (fields : IterationOrder (Sigma fun _ : String => SchemaField))
    (values : IterationOrder (Sigma fun _ : String => ConfigValue)) (e : ConfigError) :
    e ∈ c.validateAll fields values schema ↔
      ∃ key, schema.Lacks c.values key ∧ e = .missingRequired key := by
  have hnone : ((values.arrange c.values.entries).filterMap fun entry =>
      match schema.fields.lookup entry.1 with
      | some field =>
        match validateValue entry.1 entry.2 field with
        | .error e => some e
        | .ok () => none
      | none => none) = [] := by
    apply List.filterMap_eq_nil_iff.mpr
    intro entry hentry
    have hcheck := h entry.1 entry.2
      (AList.mem_lookup_iff.mpr (values.mem_arrange.mp hentry))
    rw [checked, hc] at hcheck
    cases hfield : schema.fields.lookup entry.1 with
    | none => rfl
    | some field =>
      rw [Option.bind_some, hfield] at hcheck
      simp only [hcheck]
  rw [validateAll, hnone, List.append_nil, List.mem_map]
  constructor
  · rintro ⟨entry, hentry, rfl⟩
    obtain ⟨hmem, htest⟩ := List.mem_filter.mp hentry
    simp only [Bool.and_eq_true, Bool.not_eq_true', decide_eq_false_iff_not] at htest
    exact ⟨entry.1, ⟨entry.2, AList.mem_lookup_iff.mpr (fields.mem_arrange.mp hmem), htest.1,
      htest.2⟩, rfl⟩
  · rintro ⟨key, ⟨field, hfield, hrequired, hkey⟩, rfl⟩
    refine ⟨⟨key, field⟩, List.mem_filter.mpr ⟨?_, by simp [hrequired, hkey]⟩, rfl⟩
    exact fields.mem_arrange.mpr (AList.mem_lookup_iff.mp hfield)

end DynamicConfig

/-- A configuration with a schema, after some calls. -/
def configured (schema : ConfigSchema) (ops : List Op) : DynamicConfig :=
  ops.foldl DynamicConfig.apply (.withSchema schema)

theorem foldl_apply (hc : c.schema = some schema) (h : c.Conforms) (ops : List Op) :
    (ops.foldl DynamicConfig.apply c).schema = some schema ∧
      (ops.foldl DynamicConfig.apply c).Conforms ∧
        ((∀ key, ¬schema.Lacks c.values key) →
          ∀ key, ¬schema.Lacks (ops.foldl DynamicConfig.apply c).values key) := by
  induction ops generalizing c with
  | nil => exact ⟨hc, h, fun hcomplete => hcomplete⟩
  | cons op ops ih =>
    obtain ⟨hschema, hconforms, hcomplete⟩ := ih ((c.apply_cases op).1.trans hc) (h.apply hc op)
    exact ⟨hschema, hconforms, fun hall => hcomplete fun key =>
      DynamicConfig.complete_apply hall hc op key⟩

/-- Whatever is called, the store holds only values that pass their checks, and its validation
finds only what is required and missing: nothing at all from the first reload on that is accepted,
as those are that have all that is required and whose values pass. -/
theorem configuration_valid (schema : ConfigSchema) (ops : List Op) :
    (configured schema ops).Conforms ∧
    (∀ fields values e, e ∈ (configured schema ops).validateAll fields values schema ↔
      ∃ key, schema.Lacks (configured schema ops).values key ∧ e = .missingRequired key) ∧
    (∀ orders newValues, (∃ keys, ((configured schema ops).reloadFromMap orders newValues).1 =
      .ok keys) ↔ (∀ key, ¬schema.Lacks newValues key) ∧ ∀ key value,
        newValues.lookup key = some value →
          (configured schema ops).checked key value = .ok ()) ∧
    ∀ orders newValues later,
      (∃ keys, ((configured schema ops).reloadFromMap orders newValues).1 = .ok keys) →
        ∀ fields values, (configured schema
          (ops ++ .reloadFromMap orders newValues :: later)).validateAll fields values schema =
            [] := by
  have hempty : (DynamicConfig.withSchema schema).Conforms := by
    intro key value h
    simp [DynamicConfig.withSchema] at h
  obtain ⟨hschema, hconforms, -⟩ : (configured schema ops).schema = some schema ∧
    (configured schema ops).Conforms ∧ _ := foldl_apply rfl hempty ops
  refine ⟨hconforms, DynamicConfig.mem_validateAll hconforms hschema,
    DynamicConfig.reload_ok_iff hschema, fun orders newValues later haccepted fields values => ?_⟩
  have hreload := ((configured schema ops).apply_cases (.reloadFromMap orders newValues)).1
  have hkept := hconforms.apply hschema (.reloadFromMap orders newValues)
  obtain ⟨hthen, hlast, hcomplete⟩ := foldl_apply (hreload.trans hschema) hkept later
  have hmeets := (DynamicConfig.reload_ok_iff hschema orders newValues).mp haccepted
  have hstored := (DynamicConfig.reload_of_ok
    ((DynamicConfig.checkedAll_ok_iff hschema orders newValues).mpr hmeets)).1
  have hrun : configured schema (ops ++ .reloadFromMap orders newValues :: later) =
      later.foldl DynamicConfig.apply
        ((configured schema ops).apply (.reloadFromMap orders newValues)) := by
    rw [configured, List.foldl_append]
    rfl
  rw [hrun]
  apply List.eq_nil_iff_forall_not_mem.mpr
  intro e he
  obtain ⟨key, hlacks, -⟩ := (DynamicConfig.mem_validateAll hlast hthen fields values e).mp he
  refine hcomplete (fun key => ?_) key hlacks
  change ¬schema.Lacks ((configured schema ops).reloadFromMap orders newValues).2.values key
  rw [hstored]
  exact hmeets.1 key

end HelixRouter.Configuration
