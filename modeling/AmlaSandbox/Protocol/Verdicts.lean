import AmlaSandbox.Protocol.Methods

/-!
# Verdicts of capability sets

Which tool calls and which accesses to storage a set of capabilities allows. An access is allowed if
one of the capabilities allows it; a call is left to the first capability for its tool.
-/

namespace AmlaSandbox.Protocol

open Json Constraints

/-! ### Checks of one capability -/

/-- The check that reading and deleting share. -/
def PartitionPattern.check (self : PartitionPattern) (key : String) :
    Except CapabilityError Unit :=
  if self.matches key then .ok () else .error (.partitionDenied key)

def MemoryReadCap.check (self : MemoryReadCap) (key : String) : Except CapabilityError Unit :=
  self.partition.check key

def MemoryDeleteCap.check (self : MemoryDeleteCap) (key : String) : Except CapabilityError Unit :=
  self.partition.check key

/-- The loop that the checks of storage share. -/
def checkSome {α : Type} (check : α → Except CapabilityError Unit) (key : String) :
    List α → Except CapabilityError Unit
  | [] => .error (.partitionDenied key)
  | cap :: caps =>
    match check cap with
    | .ok () => .ok ()
    | .error _ => checkSome check key caps

lemma checkSome_eq_ok {α : Type} {check : α → Except CapabilityError Unit} {key : String}
    {caps : List α} : checkSome check key caps = .ok () ↔ ∃ cap ∈ caps, check cap = .ok () := by
  induction caps with
  | nil => simp [checkSome]
  | cons cap caps ih =>
    rw [checkSome]
    cases hcap : check cap with
    | ok u => simp [hcap]
    | error e => simp [hcap, ih]

/-- A capability of any type. -/
inductive TypedCap
  | toolCall (cap : ToolCallCap)
  | memoryRead (cap : MemoryReadCap)
  | memoryWrite (cap : MemoryWriteCap)
  | memoryDelete (cap : MemoryDeleteCap)
  | spawn (cap : SpawnCap)

/-- What a set of capabilities is asked for. -/
inductive Query
  | toolCall (tool : String) (params : Value)
  | memoryRead (key : String)
  | memoryWrite (key : String) (valueSize : USize)
  | memoryDelete (key : String)

section Checks

/- `{:?}` of a JSON value, which error texts quote. -/
variable (debug : Value → String)

def ToolCallCap.check (self : ToolCallCap) (params : Value) : Except CapabilityError Unit :=
  ((ConstraintSet.mk self.constraints).evaluate debug params).mapError fun e =>
    .constraintViolation e.toString

/-! ### Sets -/

/-- The loop of `check_tool_call`: the first capability for the tool decides. -/
def checkTool (tool : String) (params : Value) : List ToolCallCap → Except CapabilityError Unit
  | [] => .error (.typeNotAllowed ("No capability for tool: " ++ tool))
  | cap :: caps => if cap.tool = tool then cap.check debug params else checkTool tool params caps

namespace CapabilitySet

variable (self : CapabilitySet)

def add : TypedCap → CapabilitySet
  | .toolCall cap => { self with toolCalls := self.toolCalls ++ [cap] }
  | .memoryRead cap => { self with memoryReads := self.memoryReads ++ [cap] }
  | .memoryWrite cap => { self with memoryWrites := self.memoryWrites ++ [cap] }
  | .memoryDelete cap => { self with memoryDeletes := self.memoryDeletes ++ [cap] }
  | .spawn cap => { self with spawns := self.spawns ++ [cap] }

def checkToolCall (tool : String) (params : Value) : Except CapabilityError Unit :=
  checkTool debug tool params self.toolCalls

def checkMemoryRead (key : String) : Except CapabilityError Unit :=
  checkSome (fun cap => cap.check key) key self.memoryReads

def checkMemoryWrite (key : String) (valueSize : USize) : Except CapabilityError Unit :=
  checkSome (fun cap => cap.check key valueSize) key self.memoryWrites

def checkMemoryDelete (key : String) : Except CapabilityError Unit :=
  checkSome (fun cap => cap.check key) key self.memoryDeletes

def check : Query → Except CapabilityError Unit
  | .toolCall tool params => self.checkToolCall debug tool params
  | .memoryRead key => self.checkMemoryRead key
  | .memoryWrite key valueSize => self.checkMemoryWrite key valueSize
  | .memoryDelete key => self.checkMemoryDelete key

/-! ### Unions -/

/-- One of the capabilities allows what is asked for. -/
def Grants : Query → Prop
  | .toolCall tool params =>
    ∃ cap ∈ self.toolCalls, cap.tool = tool ∧ cap.check debug params = .ok ()
  | .memoryRead key => ∃ cap ∈ self.memoryReads, cap.check key = .ok ()
  | .memoryWrite key valueSize => ∃ cap ∈ self.memoryWrites, cap.check key valueSize = .ok ()
  | .memoryDelete key => ∃ cap ∈ self.memoryDeletes, cap.check key = .ok ()

/-- The same capabilities in another order. -/
structure Reordered (capSet other : CapabilitySet) : Prop where
  toolCalls : other.toolCalls.Perm capSet.toolCalls
  memoryReads : other.memoryReads.Perm capSet.memoryReads
  memoryWrites : other.memoryWrites.Perm capSet.memoryWrites
  memoryDeletes : other.memoryDeletes.Perm capSet.memoryDeletes
  spawns : other.spawns.Perm capSet.spawns

/-- The verdict is that of the union of the capabilities: their order does not matter, and a further
one revokes nothing. -/
structure IsUnion (debug : Value → String) (capSet : CapabilitySet) (q : Query) : Prop where
  union : capSet.check debug q = .ok () ↔ capSet.Grants debug q
  order : ∀ other, capSet.Reordered other →
    (other.check debug q = .ok () ↔ capSet.check debug q = .ok ())
  grows : ∀ cap, capSet.check debug q = .ok () → (capSet.add cap).check debug q = .ok ()

/-- The capabilities for the tool that is called all allow the call, or all deny it. -/
def Unanimous : Query → Prop
  | .toolCall tool params =>
    ∀ cap ∈ self.toolCalls, ∀ other ∈ self.toolCalls, cap.tool = tool → other.tool = tool →
      cap.check debug params = .ok () → other.check debug params = .ok ()
  | .memoryRead _ | .memoryWrite _ _ | .memoryDelete _ => True

end CapabilitySet

end Checks

/-! ### When verdicts are unions -/

section Verdicts

variable {debug : Value → String} {tool : String} {params : Value} {caps rest : List ToolCallCap}

lemma checkTool_eq_ok : checkTool debug tool params caps = .ok () ↔
    ∃ cap ∈ caps.find? fun cap => cap.tool = tool, cap.check debug params = .ok () := by
  induction caps with
  | nil => simp [checkTool]
  | cons cap caps ih =>
    rw [checkTool]
    split_ifs with htool
    · simp [htool]
    · simp [htool, ih]

/-- A capability at the end is looked at last. -/
lemma checkTool_append (h : checkTool debug tool params caps = .ok ()) :
    checkTool debug tool params (caps ++ rest) = .ok () := by
  rw [checkTool_eq_ok] at h ⊢
  obtain ⟨cap, hfind, hcap⟩ := h
  exact ⟨cap, by rw [List.find?_append, hfind]; rfl, hcap⟩

namespace CapabilitySet

variable {self other : CapabilitySet} {q : Query}

/-- Where all capabilities for a tool agree, the first of them speaks for all. -/
lemma Unanimous.checkToolCall (h : self.Unanimous debug (.toolCall tool params)) :
    self.checkToolCall debug tool params = .ok () ↔ self.Grants debug (.toolCall tool params) := by
  rw [CapabilitySet.checkToolCall, checkTool_eq_ok]
  constructor
  · rintro ⟨cap, hfind, hcap⟩
    exact ⟨cap, List.mem_of_find?_eq_some hfind, by simpa using List.find?_some hfind, hcap⟩
  · rintro ⟨cap, hmem, htool, hcap⟩
    have hsome : (self.toolCalls.find? fun cap => cap.tool = tool).isSome :=
      List.find?_isSome.mpr ⟨cap, hmem, by simpa using htool⟩
    obtain ⟨first, hfind⟩ := Option.isSome_iff_exists.mp hsome
    have hfirst : first.tool = tool := by simpa using List.find?_some hfind
    exact ⟨first, hfind, h cap hmem first (List.mem_of_find?_eq_some hfind) htool hfirst hcap⟩

lemma Unanimous.union (h : self.Unanimous debug q) :
    self.check debug q = .ok () ↔ self.Grants debug q := by
  cases q with
  | toolCall tool params => exact h.checkToolCall
  | memoryRead key => exact checkSome_eq_ok
  | memoryWrite key valueSize => exact checkSome_eq_ok
  | memoryDelete key => exact checkSome_eq_ok

lemma Reordered.unanimous (hother : self.Reordered other) (h : self.Unanimous debug q) :
    other.Unanimous debug q := by
  cases q with
  | toolCall tool params =>
    intro cap hcap cap' hcap'
    exact h cap (hother.toolCalls.mem_iff.mp hcap) cap' (hother.toolCalls.mem_iff.mp hcap')
  | memoryRead key => trivial
  | memoryWrite key valueSize => trivial
  | memoryDelete key => trivial

lemma Reordered.grants_iff (hother : self.Reordered other) :
    other.Grants debug q ↔ self.Grants debug q := by
  cases q with
  | toolCall tool params => simp only [Grants, hother.toolCalls.mem_iff]
  | memoryRead key => simp only [Grants, hother.memoryReads.mem_iff]
  | memoryWrite key valueSize => simp only [Grants, hother.memoryWrites.mem_iff]
  | memoryDelete key => simp only [Grants, hother.memoryDeletes.mem_iff]

/-- Adding a capability never revokes a permission. -/
lemma check_add (h : self.check debug q = .ok ()) (cap : TypedCap) :
    (self.add cap).check debug q = .ok () := by
  have hsome : ∀ {α : Type} {check : α → Except CapabilityError Unit} {key : String}
      {caps : List α} (cap : α), checkSome check key caps = .ok () →
        checkSome check key (caps ++ [cap]) = .ok () := by
    intro α check key caps cap hcaps
    obtain ⟨cap', hmem, hcap⟩ := checkSome_eq_ok.mp hcaps
    exact checkSome_eq_ok.mpr ⟨cap', List.mem_append_left _ hmem, hcap⟩
  cases q with
  | toolCall tool params =>
    cases cap with
    | toolCall cap => exact checkTool_append h
    | _ => exact h
  | memoryRead key =>
    cases cap with
    | memoryRead cap => exact hsome cap h
    | _ => exact h
  | memoryWrite key valueSize =>
    cases cap with
    | memoryWrite cap => exact hsome cap h
    | _ => exact h
  | memoryDelete key =>
    cases cap with
    | memoryDelete cap => exact hsome cap h
    | _ => exact h

/-- A capability can be moved to the front, where it decides about its tool. -/
lemma exists_reordered (debug : Value → String) (params : Value) {cap : ToolCallCap}
    (hmem : cap ∈ self.toolCalls) (htool : cap.tool = tool) :
    ∃ other, self.Reordered other ∧
      other.check debug (.toolCall tool params) = cap.check debug params := by
  obtain ⟨before, after, hsplit⟩ := List.append_of_mem hmem
  refine ⟨{ self with toolCalls := cap :: (before ++ after) }, ⟨?_, .refl _, .refl _, .refl _,
    .refl _⟩, ?_⟩
  · rw [hsplit]
    exact List.perm_middle.symm
  · simp only [check, CapabilitySet.checkToolCall, checkTool, htool, if_true]

/-- Verdicts are those of the union exactly where the capabilities for a tool agree on the call. -/
theorem isUnion_iff_unanimous (self : CapabilitySet) (q : Query) :
    self.IsUnion debug q ↔ self.Unanimous debug q := by
  constructor
  · intro h
    cases q with
    | toolCall tool params =>
      intro cap hcap other hother htool htool' hok
      obtain ⟨first, hfirst, hcheck⟩ := exists_reordered debug params hcap htool
      obtain ⟨second, hsecond, hcheck'⟩ := exists_reordered debug params hother htool'
      rw [← hcheck, h.order first hfirst, ← h.order second hsecond, hcheck'] at hok
      exact hok
    | memoryRead key => trivial
    | memoryWrite key valueSize => trivial
    | memoryDelete key => trivial
  · intro h
    refine ⟨h.union, fun other hother => ?_, fun cap hok => check_add hok cap⟩
    rw [h.union, (hother.unanimous h).union, hother.grants_iff]

/-- Of two limits on the amount, the smaller one comes first. -/
theorem not_isUnion_overlap : ¬ ∀ (self : CapabilitySet) (q : Query),
    self.IsUnion (fun _ => "") q := by
  intro hall
  let small : ToolCallCap := ⟨"stripe:charge", [.le "amount" (.number (.posInt 10))]⟩
  let large : ToolCallCap := ⟨"stripe:charge", [.le "amount" (.number (.posInt 100))]⟩
  let q : Query := .toolCall "stripe:charge" (.object [("amount", .number (.posInt 50))])
  have hgrants : (CapabilitySet.add { toolCalls := [small] } (.toolCall large)).Grants
      (fun _ => "") q :=
    ⟨large, by simp [CapabilitySet.add], rfl, by decide +kernel⟩
  have hcheck := (hall _ q).union.mpr hgrants
  exact absurd hcheck (by decide +kernel)

end CapabilitySet

end Verdicts

end AmlaSandbox.Protocol
