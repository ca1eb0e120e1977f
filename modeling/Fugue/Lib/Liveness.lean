import Mathlib.Logic.Relation
import Mathlib.Tactic.Common

/-!
# Liveness

A flow graph has a list of instructions at every node. Entering a node defines some values, and
leaving it uses some. A value is live at a point when a path from there reaches a use of the value
and passes no definition of it before. `liveIn_iff` says this of a whole node, in terms of what is
live at its end, and `LiveIn.least` that the paths are the least solution of these equations.
-/

namespace Fugue.Lib

universe u v w

/-- A graph of nodes that hold instructions. -/
structure Flow (Node : Type u) (Instr : Type v) (Value : Type w) where
  code : Node → List Instr
  edge : Node → Node → Prop
  entryDefines : Node → Value → Prop
  exitUses : Node → Value → Prop
  uses : Instr → Value → Prop
  defines : Instr → Value → Prop

namespace Flow

variable {Node : Type u} {Instr : Type v} {Value : Type w} (flow : Flow Node Instr Value)

/-- A point of the program: a node that is about to be entered, or what is left of its code. -/
inductive Point (Node : Type u) (Instr : Type v) where
  | enter (node : Node)
  | before (node : Node) (rest : List Instr)

/-- Control passes from one point to the next one, without a definition of the value. -/
inductive Passes (value : Value) : Point Node Instr → Point Node Instr → Prop
  | enter {node : Node} (keeps : ¬ flow.entryDefines node value) :
    Passes value (.enter node) (.before node (flow.code node))
  | instr {node : Node} {instr : Instr} {rest : List Instr} (keeps : ¬ flow.defines instr value) :
    Passes value (.before node (instr :: rest)) (.before node rest)
  | edge {node target : Node} (edge : flow.edge node target) :
    Passes value (.before node []) (.enter target)

inductive UsedAt (value : Value) : Point Node Instr → Prop
  | instr {node : Node} {instr : Instr} {rest : List Instr} (uses : flow.uses instr value) :
    UsedAt value (.before node (instr :: rest))
  | exit {node : Node} (uses : flow.exitUses node value) : UsedAt value (.before node [])

/-- A path from the point reaches a use of the value and passes no definition of it. -/
def LiveAt (value : Value) (point : Point Node Instr) : Prop :=
  ∃ user, Relation.ReflTransGen (flow.Passes value) point user ∧ flow.UsedAt value user

/-- The value is live where the node is entered. -/
def LiveIn (node : Node) (value : Value) : Prop := flow.LiveAt value (.enter node)

/-- The value is used on leaving the node, or live at a node that is entered next. -/
def LiveOut (node : Node) (value : Value) : Prop :=
  flow.exitUses node value ∨ ∃ target, flow.edge node target ∧ flow.LiveIn target value

/-- The code uses the value before it defines it. -/
def Reads (value : Value) : List Instr → Prop
  | [] => False
  | instr :: rest => flow.uses instr value ∨ ¬ flow.defines instr value ∧ Reads value rest

/-- The code defines the value. -/
def Writes (value : Value) (code : List Instr) : Prop := ∃ instr ∈ code, flow.defines instr value

variable {flow} {value : Value} {node : Node}

theorem liveAt_iff {point : Point Node Instr} :
    flow.LiveAt value point ↔ flow.UsedAt value point ∨
      ∃ next, flow.Passes value point next ∧ flow.LiveAt value next := by
  constructor
  · rintro ⟨user, path, used⟩
    rcases path.cases_head with rfl | ⟨next, pass, path⟩
    · exact .inl used
    · exact .inr ⟨next, pass, user, path, used⟩
  · rintro (used | ⟨next, pass, user, path, used⟩)
    · exact ⟨point, .refl, used⟩
    · exact ⟨user, path.head pass, used⟩

theorem liveAt_end : flow.LiveAt value (.before node []) ↔ flow.LiveOut node value := by
  rw [liveAt_iff]
  constructor
  · rintro (used | ⟨next, pass, live⟩)
    · cases used with
      | exit uses => exact .inl uses
    · cases pass with
      | edge edge => exact .inr ⟨_, edge, live⟩
  · rintro (uses | ⟨target, edge, live⟩)
    · exact .inl (.exit uses)
    · exact .inr ⟨_, .edge edge, live⟩

theorem liveAt_instr {instr : Instr} {rest : List Instr} :
    flow.LiveAt value (.before node (instr :: rest)) ↔ flow.uses instr value ∨
      ¬ flow.defines instr value ∧ flow.LiveAt value (.before node rest) := by
  rw [liveAt_iff]
  constructor
  · rintro (used | ⟨next, pass, live⟩)
    · cases used with
      | instr uses => exact .inl uses
    · cases pass with
      | instr keeps => exact .inr ⟨keeps, live⟩
  · rintro (uses | ⟨keeps, live⟩)
    · exact .inl (.instr uses)
    · exact .inr ⟨_, .instr keeps, live⟩

@[simp] theorem writes_nil : ¬ flow.Writes value [] := by simp [Writes]

@[simp] theorem writes_cons {instr : Instr} {rest : List Instr} :
    flow.Writes value (instr :: rest) ↔ flow.defines instr value ∨ flow.Writes value rest := by
  simp [Writes]

/-- What is live before a piece of code, by what is live at the end of the node. -/
theorem liveAt_before (rest : List Instr) :
    flow.LiveAt value (.before node rest) ↔ flow.Reads value rest ∨
      ¬ flow.Writes value rest ∧ flow.LiveOut node value := by
  induction rest with
  | nil => simp [liveAt_end, Reads]
  | cons instr rest ih =>
    rw [liveAt_instr, ih, Reads, writes_cons]
    tauto

theorem liveIn_iff : flow.LiveIn node value ↔ ¬ flow.entryDefines node value ∧
    (flow.Reads value (flow.code node) ∨
      ¬ flow.Writes value (flow.code node) ∧ flow.LiveOut node value) := by
  rw [LiveIn, liveAt_iff, ← liveAt_before]
  constructor
  · rintro (used | ⟨next, pass, live⟩)
    · cases used
    · cases pass with
      | enter keeps => exact ⟨keeps, live⟩
  · rintro ⟨keeps, live⟩
    exact .inr ⟨_, .enter keeps, live⟩

/-- What a set of nodes says of the points within them. -/
def Explains (flow : Flow Node Instr Value) (value : Value) (live : Node → Prop) :
    Point Node Instr → Prop
  | .enter node => live node
  | .before node rest => flow.Reads value rest ∨ ¬ flow.Writes value rest ∧
      (flow.exitUses node value ∨ ∃ target, flow.edge node target ∧ live target)

/-- A set that meets the equations of the nodes explains every live point. -/
theorem LiveAt.explained {live : Node → Prop} (closed : ∀ node, ¬ flow.entryDefines node value →
      flow.Explains value live (.before node (flow.code node)) → live node)
    {point : Point Node Instr} (at_ : flow.LiveAt value point) :
    flow.Explains value live point := by
  obtain ⟨user, path, used⟩ := at_
  -- backwards along the path, from the use
  induction path using Relation.ReflTransGen.head_induction_on with
  | refl =>
    cases used with
    | instr uses => exact .inl (.inl uses)
    | exit uses => exact .inr ⟨writes_nil, .inl uses⟩
  | head pass _ ih =>
    cases pass with
    | enter keeps => exact closed _ keeps ih
    | instr keeps =>
      rcases ih with reads | ⟨kept, out⟩
      · exact .inl (.inr ⟨keeps, reads⟩)
      · exact .inr ⟨by rw [writes_cons]; tauto, out⟩
    | edge edge => exact .inr ⟨writes_nil, .inr ⟨_, edge, ih⟩⟩

/-- What is live at the start of the nodes is the least solution of their equations. -/
theorem LiveIn.least (live : Node → Prop) (closed : ∀ node, ¬ flow.entryDefines node value →
      (flow.Reads value (flow.code node) ∨ ¬ flow.Writes value (flow.code node) ∧
        (flow.exitUses node value ∨ ∃ target, flow.edge node target ∧ live target)) → live node)
    (liveIn : flow.LiveIn node value) : live node :=
  LiveAt.explained closed liveIn

end Flow

end Fugue.Lib
