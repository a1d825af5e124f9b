import AmlaSandbox.Constraints.Attenuation
import AmlaSandbox.Json.Rounding
import AmlaSandbox.Stubs.Files

/-!
# Constraints of MCP tools

The constraints that are derived from the input schema of a tool, and when they mean the schema.
-/

namespace AmlaSandbox.Stubs

open Constraints Json Protocol Text

/-! ### Schemas -/

/-- JSON Schema property definition; a bound is parsed as a finite `f64`. -/
structure JsonSchemaProperty where
  propType : Option String
  description : Option String
  enumValues : Option (List Value)
  minimum : Option F64
  maximum : Option F64

/-- JSON Schema for MCP tool input. The properties stand in the order in which their map is
visited. -/
structure InputSchema where
  properties : List (String × JsonSchemaProperty)
  required : List String
  nodup : (properties.map Prod.fst).Nodup

/-- MCP tool definition (raw from JSON). -/
structure McpToolRaw where
  name : Text
  description : Option Text
  inputSchema : InputSchema

namespace InputSchema

variable (schema : InputSchema) (p : String × JsonSchemaProperty)

def paramMetadata : ParamMetadata :=
  { name := p.1.toList
    paramType := (p.2.propType.getD "any").toList
    description := (p.2.description.getD ("Parameter: " ++ p.1)).toList
    required := p.1 ∈ schema.required }

/-- The constraints that one property gives. -/
def propertyConstraints : List Constraint :=
  (p.2.minimum.map fun min => .ge p.1 (.number (.float min))).toList ++
  (p.2.maximum.map fun max => .le p.1 (.number (.float max))).toList ++
  (p.2.enumValues.map fun values => .in p.1 values).toList ++
  if p.1 ∈ schema.required then [.exists p.1] else []

end InputSchema

/-- Parse an MCP tool from raw JSON representation. -/
def McpTool.fromRaw (raw : McpToolRaw) : McpTool :=
  { name := raw.name
    description := raw.description.getD "MCP Tool".toList
    params := raw.inputSchema.properties.map raw.inputSchema.paramMetadata
    constraints := raw.inputSchema.properties.flatMap raw.inputSchema.propertyConstraints }

/-- Convert to `ToolCallCap` for capability checking. -/
def McpTool.toToolCallCap (tool : McpTool) : ToolCallCap :=
  { tool := String.ofList tool.name, constraints := tool.constraints }

/-! ### What a schema means -/

/-- A value of a declared type. -/
structure HasType (v : Value) (propType : String) : Prop where
  string : propType = "string" → ∃ s, v = .string s
  integer : propType = "integer" → ∃ n, v = .number n ∧ ∃ k : ℤ, n.units = k * 2 ^ ulpExponent
  number : propType = "number" → ∃ n, v = .number n
  boolean : propType = "boolean" → ∃ b, v = .bool b
  array : propType = "array" → ∃ list, v = .array list
  object : propType = "object" → ∃ map, v = .object map

/-- The keywords of a property hold of a value; the bounds are about numbers. -/
structure JsonSchemaProperty.Holds (prop : JsonSchemaProperty) (v : Value) : Prop where
  minimum : ∀ min, prop.minimum = some min → ∀ n, v = .number n → min.units ≤ n.units
  maximum : ∀ max, prop.maximum = some max → ∀ n, v = .number n → n.units ≤ max.units
  enumValues : ∀ values, prop.enumValues = some values → v ∈ values

namespace InputSchema

variable (schema : InputSchema) (map : List (String × Value))

def WellTyped : Prop :=
  ∀ p ∈ schema.properties, ∀ v, map.lookup p.1 = some v →
    ∀ propType, p.2.propType = some propType → HasType v propType

/-- The parameters are what the schema asks for. -/
structure Conforms : Prop where
  required : ∀ name ∈ schema.required, (map.lookup name).isSome
  holds : ∀ p ∈ schema.properties, ∀ v, map.lookup p.1 = some v → p.2.Holds v

end InputSchema

/-- The constraint set of the capability accepts the parameters. -/
def McpToolRaw.Accepts (debug : Value → String) (raw : McpToolRaw)
    (map : List (String × Value)) : Prop :=
  (ConstraintSet.mk (McpTool.fromRaw raw).toToolCallCap.constraints).evaluate debug
    (.object map) = .ok ()

/-! ### Where the constraints mean the schema -/

/-- A number whose double is above the bound, or the bound itself. -/
def IsAbove (min : F64) (v : Value) : Prop :=
  ∃ n, v = .number n ∧ (n = .float min ∨ min < n.asF64)

def IsBelow (max : F64) (v : Value) : Prop :=
  ∃ n, v = .number n ∧ (n = .float max ∨ n.asF64 < max)

def JsonSchemaProperty.HasKeyword (prop : JsonSchemaProperty) : Prop :=
  prop.minimum.isSome ∨ prop.maximum.isSome ∨ prop.enumValues.isSome

namespace InputSchema

variable (schema : InputSchema) (map : List (String × Value))

/-- At the place that its name denotes as a JSON pointer, a property has a value if it is required
or has a keyword, and the keywords hold of the value with strict bounds, which only a float may
reach. -/
structure Passes (p : String × JsonSchemaProperty) : Prop where
  present : p.1 ∈ schema.required ∨ p.2.HasKeyword → (getParamOpt (.object map) p.1).isSome
  minimum : ∀ v, getParamOpt (.object map) p.1 = some v →
    ∀ min, p.2.minimum = some min → IsAbove min v
  maximum : ∀ v, getParamOpt (.object map) p.1 = some v →
    ∀ max, p.2.maximum = some max → IsBelow max v
  enumValues : ∀ v, getParamOpt (.object map) p.1 = some v →
    ∀ values, p.2.enumValues = some values → v ∈ values

/-- A required name without a definition has a value, and the name of a property that is required or
has a keyword leads to the value under that name, which every plain name does. -/
structure ReadsNames : Prop where
  declared : ∀ name ∈ schema.required,
    (∃ p ∈ schema.properties, p.1 = name) ∨ (map.lookup name).isSome
  read : ∀ p ∈ schema.properties, p.1 ∈ schema.required ∨ p.2.HasKeyword →
    getParamOpt (.object map) p.1 = map.lookup p.1

/-- No property with a keyword is absent, and every value under a bound is a number whose double is
not the bound, unless it is that very float. -/
structure IsRegular : Prop where
  present : ∀ p ∈ schema.properties, p.2.HasKeyword → (map.lookup p.1).isSome
  bounded : ∀ p ∈ schema.properties, ∀ v, map.lookup p.1 = some v →
    ∀ bound, p.2.minimum = some bound ∨ p.2.maximum = some bound →
      ∃ n, v = .number n ∧ (n.asF64 = bound → n = .float bound)

end InputSchema

/-! ### Single properties -/

section

variable {schema : InputSchema} {map : List (String × Value)} {p : String × JsonSchemaProperty}

lemma compareLe_float_left {min : F64} {v : Value} :
    compareLe (.number (.float min)) v ↔ IsAbove min v := by
  rw [compareLe_iff, IsAbove]
  cases v with
  | number n =>
    have hlt : compareLt (.number (.float min)) (.number n) ↔ min < n.asF64 := decide_eq_true_iff
    simp only [hlt, Value.number.injEq, exists_eq_left', @eq_comm _ (Number.float min)]
  | _ => simp [compareLt]

lemma compareLe_float_right {max : F64} {v : Value} :
    compareLe v (.number (.float max)) ↔ IsBelow max v := by
  rw [compareLe_iff, IsBelow]
  cases v with
  | number n =>
    have hlt : compareLt (.number n) (.number (.float max)) ↔ n.asF64 < max := decide_eq_true_iff
    simp only [hlt, Value.number.injEq, exists_eq_left']
  | _ => simp [compareLt]

/-- The constraints of a property ask whether it passes. -/
lemma admits_propertyConstraints_iff :
    (∀ c ∈ schema.propertyConstraints p, c.Admits (.object map)) ↔ schema.Passes map p := by
  have hiff : (∀ c ∈ schema.propertyConstraints p, c.Admits (.object map)) ↔
      (∀ min, p.2.minimum = some min → HasParam (.object map) p.1 (IsAbove min)) ∧
      (∀ max, p.2.maximum = some max → HasParam (.object map) p.1 (IsBelow max)) ∧
      (∀ values, p.2.enumValues = some values → HasParam (.object map) p.1 (· ∈ values)) ∧
      (p.1 ∈ schema.required → (getParamOpt (.object map) p.1).isSome) := by
    have hexists : (∀ c ∈ if p.1 ∈ schema.required then [Constraint.exists p.1] else [],
        c.Admits (.object map)) ↔
        (p.1 ∈ schema.required → (getParamOpt (.object map) p.1).isSome) := by
      split_ifs with h <;> simp [h, Constraint.Admits]
    simp only [InputSchema.propertyConstraints, List.forall_mem_append, Option.mem_toList,
      Option.map_eq_some_iff, forall_exists_index, and_imp, forall_apply_eq_imp_iff₂,
      Constraint.Admits, compareLe_float_left, compareLe_float_right, and_assoc, hexists]
  rw [hiff]
  constructor
  · rintro ⟨hmin, hmax, henum, hrequired⟩
    have found {P : Value → Prop} (h : HasParam (.object map) p.1 P) :
        (getParamOpt (.object map) p.1).isSome := by
      obtain ⟨v, hv, -⟩ := h
      exact Option.isSome_of_mem hv
    have holds {P : Value → Prop} (h : HasParam (.object map) p.1 P) (v : Value)
        (hv : getParamOpt (.object map) p.1 = some v) : P v := by
      obtain ⟨w, hw, hP⟩ := h
      exact Option.some_inj.mp (hw.symm.trans hv) ▸ hP
    refine ⟨?_, fun v hv min h => holds (hmin min h) v hv,
      fun v hv max h => holds (hmax max h) v hv,
      fun v hv values h => holds (henum values h) v hv⟩
    rintro (h | h | h | h)
    · exact hrequired h
    · obtain ⟨min, h⟩ := Option.isSome_iff_exists.mp h
      exact found (hmin min h)
    · obtain ⟨max, h⟩ := Option.isSome_iff_exists.mp h
      exact found (hmax max h)
    · obtain ⟨values, h⟩ := Option.isSome_iff_exists.mp h
      exact found (henum values h)
  · rintro ⟨hpresent, hmin, hmax, henum⟩
    refine ⟨fun min h => ?_, fun max h => ?_, fun values h => ?_, fun h => hpresent (.inl h)⟩
    · obtain ⟨v, hv⟩ := Option.isSome_iff_exists.mp (hpresent (.inr (.inl (by rw [h]; rfl))))
      exact ⟨v, hv, hmin v hv min h⟩
    · obtain ⟨v, hv⟩ :=
        Option.isSome_iff_exists.mp (hpresent (.inr (.inr (.inl (by rw [h]; rfl)))))
      exact ⟨v, hv, hmax v hv max h⟩
    · obtain ⟨v, hv⟩ :=
        Option.isSome_iff_exists.mp (hpresent (.inr (.inr (.inr (by rw [h]; rfl)))))
      exact ⟨v, hv, henum v hv values h⟩

lemma accepts_iff_passes {debug : Value → String} {raw : McpToolRaw} :
    raw.Accepts debug map ↔
      ∀ p ∈ raw.inputSchema.properties, raw.inputSchema.Passes map p := by
  rw [McpToolRaw.Accepts, ConstraintSet.evaluate_ok_iff]
  change (∀ c ∈ raw.inputSchema.properties.flatMap raw.inputSchema.propertyConstraints, _) ↔ _
  rw [List.forall_mem_flatMap]
  exact forall₂_congr fun p _ => admits_propertyConstraints_iff

/-! ### The values that are read -/

lemma InputSchema.ReadsNames.of_isPlain (hdeclared : ∀ name ∈ schema.required,
    ∃ p ∈ schema.properties, p.1 = name) (hplain : ∀ p ∈ schema.properties, IsPlain p.1) :
    schema.ReadsNames map where
  declared name hname := .inl (hdeclared name hname)
  read p hp _ := getParamOpt_of_isPlain (hplain p hp)

lemma JsonSchemaProperty.not_hasKeyword_iff {prop : JsonSchemaProperty} :
    ¬ prop.HasKeyword ↔
      prop.minimum = none ∧ prop.maximum = none ∧ prop.enumValues = none := by
  simp [HasKeyword]

/-- Nothing is asked of a property that is optional and has no keyword. -/
lemma InputSchema.passes_of_free (hoptional : p.1 ∉ schema.required)
    (hfree : ¬ p.2.HasKeyword) : schema.Passes map p := by
  obtain ⟨hmin, hmax, henum⟩ := JsonSchemaProperty.not_hasKeyword_iff.mp hfree
  exact ⟨fun h => absurd h (not_or.mpr ⟨hoptional, hfree⟩), by simp [hmin], by simp [hmax],
    by simp [henum]⟩

/-- What passes holds. -/
lemma InputSchema.Passes.holds (h : schema.Passes map p)
    (hread : getParamOpt (.object map) p.1 = map.lookup p.1) {v : Value}
    (hv : map.lookup p.1 = some v) : p.2.Holds v := by
  rw [← hread] at hv
  refine ⟨fun min hmin n hn => ?_, fun max hmax n hn => ?_, h.enumValues v hv⟩
  · obtain ⟨m, hm, hle⟩ := h.minimum v hv min hmin
    obtain rfl : n = m := Value.number.inj (hn.symm.trans hm)
    rcases hle with rfl | hlt
    · exact le_rfl
    · exact le_of_not_gt fun hgt => not_le.mpr hlt (Number.asF64_le hgt.le)
  · obtain ⟨m, hm, hle⟩ := h.maximum v hv max hmax
    obtain rfl : n = m := Value.number.inj (hn.symm.trans hm)
    rcases hle with rfl | hlt
    · exact le_rfl
    · exact le_of_not_gt fun hgt => not_le.mpr hlt (Number.le_asF64 hgt.le)

/-- Where the names are read as they stand, no parameters are accepted that do not conform. -/
lemma InputSchema.ReadsNames.conforms (hreads : schema.ReadsNames map)
    (h : ∀ p ∈ schema.properties, schema.Passes map p) : schema.Conforms map := by
  refine ⟨fun name hname => ?_, fun p hp v hv => ?_⟩
  · rcases hreads.declared name hname with ⟨p, hp, rfl⟩ | hpresent
    · rw [← hreads.read p hp (.inl hname)]
      exact (h p hp).present (.inl hname)
    · exact hpresent
  · by_cases hkeyword : p.2.HasKeyword
    · exact (h p hp).holds (hreads.read p hp (.inr hkeyword)) hv
    · obtain ⟨hmin, hmax, henum⟩ := JsonSchemaProperty.not_hasKeyword_iff.mp hkeyword
      exact ⟨by simp [hmin], by simp [hmax], by simp [henum]⟩

/-- Where a property conforms, what keeps it from passing is that it is optional and absent, that
its value is not a number, or that an integer is rounded to a bound. -/
lemma InputSchema.Conforms.passes_iff (h : schema.Conforms map) (hp : p ∈ schema.properties)
    (hread : getParamOpt (.object map) p.1 = map.lookup p.1) :
    schema.Passes map p ↔
      (p.2.HasKeyword → (map.lookup p.1).isSome) ∧
      ∀ v, map.lookup p.1 = some v → ∀ bound, p.2.minimum = some bound ∨ p.2.maximum = some bound →
        ∃ n, v = .number n ∧ (n.asF64 = bound → n = .float bound) := by
  rw [← hread]
  constructor
  · refine fun hpasses => ⟨fun hkeyword => hpasses.present (.inr hkeyword), fun v hv bound => ?_⟩
    rintro (hbound | hbound)
    · obtain ⟨n, rfl, hle⟩ := hpasses.minimum v hv bound hbound
      exact ⟨n, rfl, fun heq => hle.resolve_right heq.not_gt⟩
    · obtain ⟨n, rfl, hle⟩ := hpasses.maximum v hv bound hbound
      exact ⟨n, rfl, fun heq => hle.resolve_right heq.not_lt⟩
  · rintro ⟨hpresent, hbounds⟩
    refine ⟨?_, fun v hv min hmin => ?_, fun v hv max hmax => ?_,
      fun v hv => (h.holds p hp v (hread ▸ hv)).enumValues⟩
    · rintro (hrequired | hkeyword)
      · exact hread ▸ h.required p.1 hrequired
      · exact hpresent hkeyword
    · obtain ⟨n, rfl, heq⟩ := hbounds v hv min (.inl hmin)
      have hle := (h.holds p hp _ (hread ▸ hv)).minimum min hmin n rfl
      exact ⟨n, rfl, (Number.le_asF64 hle).eq_or_lt.imp_left fun hmin => heq hmin.symm⟩
    · obtain ⟨n, rfl, heq⟩ := hbounds v hv max (.inr hmax)
      have hle := (h.holds p hp _ (hread ▸ hv)).maximum max hmax n rfl
      exact ⟨n, rfl, (Number.asF64_le hle).eq_or_lt.imp_left heq⟩

/-- Parameters that conform pass exactly if they are regular. -/
lemma InputSchema.Conforms.forall_passes_iff (h : schema.Conforms map)
    (hreads : schema.ReadsNames map) :
    (∀ p ∈ schema.properties, schema.Passes map p) ↔ schema.IsRegular map := by
  have hiff (p) (hp : p ∈ schema.properties) : schema.Passes map p ↔
      (p.2.HasKeyword → (map.lookup p.1).isSome) ∧
      ∀ v, map.lookup p.1 = some v → ∀ bound, p.2.minimum = some bound ∨ p.2.maximum = some bound →
        ∃ n, v = .number n ∧ (n.asF64 = bound → n = .float bound) := by
    by_cases hasked : p.1 ∈ schema.required ∨ p.2.HasKeyword
    · exact h.passes_iff hp (hreads.read p hp hasked)
    · obtain ⟨hoptional, hfree⟩ := not_or.mp hasked
      obtain ⟨hmin, hmax, -⟩ := JsonSchemaProperty.not_hasKeyword_iff.mp hfree
      refine iff_of_true (passes_of_free hoptional hfree)
        ⟨fun hkeyword => absurd hkeyword hfree, fun v _ bound hbound => ?_⟩
      simp [hmin, hmax] at hbound
  rw [forall₂_congr hiff]
  exact ⟨fun hall => ⟨fun p hp => (hall p hp).1, fun p hp => (hall p hp).2⟩,
    fun hregular p hp => ⟨hregular.present p hp, hregular.bounded p hp⟩⟩

end

/-- A tool with a page size of at most 100. -/
def searchTool : McpToolRaw :=
  { name := "search".toList, description := none
    inputSchema :=
      { properties := [("page_size",
          { propType := some "integer", description := none, enumValues := none, minimum := none
            maximum := some (.ofU64 100) })]
        required := ["page_size"], nodup := by decide } }

lemma readsNames_searchTool (map : List (String × Value)) :
    searchTool.inputSchema.ReadsNames map := by
  refine .of_isPlain (by decide) fun p hp => ?_
  obtain rfl := List.mem_singleton.mp hp
  exact ⟨by decide, by decide⟩

end AmlaSandbox.Stubs
