import ThunkLisp.Proofs.Agreement.Effectless
import ThunkLisp.Proofs.Agreement.Outline
import ThunkLisp.Proofs.Recoding

/-!
What code without effects means. The frames are those of a fixed store, in which every procedure
call has a frame of its own. A meaning comes with a bound: all frames that it calls for are numbered
below it. The operands of a call have their meaning below the number of its frame, which is why a
use of a variable may look up what the operand means.
-/

namespace ThunkLisp

namespace Store

/-- The first store has the frames of the second one that are there, and frames do not change. -/
def Grows (store after : Store) : Prop :=
  store.frames.size ≤ after.frames.size ∧ ∀ frame < store.frames.size, after.frame frame =
    store.frame frame

namespace Grows

variable {a b c : Store}

theorem refl (store : Store) : store.Grows store := ⟨Nat.le_refl _, fun _ _ => rfl⟩

theorem trans (first : a.Grows b) (second : b.Grows c) : a.Grows c :=
  ⟨Nat.le_trans first.1 second.1, fun frame less => by
    rw [second.2 frame (Nat.lt_of_lt_of_le less first.1), first.2 frame less]⟩

theorem of_frames (same : b.frames = a.frames) : a.Grows b :=
  ⟨Nat.le_of_eq (by rw [same]), fun frame _ => by simp [Store.frame, same]⟩

theorem extend (store : Store) (frame : FrameId) (bindings : Bindings) :
    store.Grows (store.extend frame bindings).2 :=
  ⟨by simp [Store.extend, Store.addFrame], fun other less =>
    store.frame_addFrame_of_lt bindings (some frame) none other less⟩

end Grows

theorem bound?_eq (store : Store) (frame : FrameId) (name : String) :
    store.bound? frame name = match (store.frame frame).bindings.find? (.sym name) with
      | some v => some v
      | none => match (store.frame frame).outer with
        | none => none
        | some outer => if outer < frame then store.bound? outer name else none := by
  unfold bound? find?
  rw [chain]
  simp only [List.find?_cons, Bindings.binds]
  cases here : (store.frame frame).bindings.find? (.sym name) with
  | some v => simp [here]
  | none =>
      simp only [Option.isSome_none]
      cases (store.frame frame).outer with
      | none => rfl
      | some outer =>
          by_cases less : outer < frame
          · simp [less]
          · simp [less]

end Store

def Gives (p : Primitive) (given : List Value) (v : Value) : Prop :=
  p.operation.isPlain = true ∧ (p.operation.compares = true → ∀ v ∈ given, v.isCompound = false) ∧
    ∃ (added : AddedActions) (store after : Store), (p.operation.run added given).on store =
      (.ok v, after)

inductive Means (frames : Store) : Nat → FrameId → Value → Value → Prop where
  | constant (bound : Nat) (frame : FrameId) (v : Value) (itself : v.isSelfEvaluating = true)
      (readable : Readable v) : Means frames bound frame v v
  | lookup (bound : Nat) (frame : FrameId) (name : String) (v : Value) (below : frame < bound)
      (found : frames.bound? frame name = some v) : Means frames bound frame (.sym name) v
  | quotation (bound : Nat) (frame : FrameId) (datum : Value) (readable : Readable datum) :
      Means frames bound frame (.list [.sym "quote", datum]) datum
  | procedure (bound : Nat) (frame : FrameId) (spec : Value) (body : List Value) (identity : Nat)
      (params : List Param) (parsed : parseParams spec = .ok params) :
      Means frames bound frame (.list (.sym "lambda" :: spec :: body))
        (.procedure identity params body frame)
  | sequence (bound : Nat) (frame : FrameId) (forms vs : List Value)
      (count : vs.length = forms.length)
      (each : ∀ pair ∈ forms.zip vs, Means frames bound frame pair.1 pair.2) :
      Means frames bound frame (.list (.sym "begin" :: forms)) (vs.getLastD .nil)
  | taken (bound : Nat) (frame : FrameId) (test decided chosen v : Value) (others : List Value)
      (few : others.length ≤ 1) (decides : Means frames bound frame test decided)
      (so : decided.isTrue = true) (gives : Means frames bound frame chosen v) :
      Means frames bound frame (.list (.sym "if" :: test :: chosen :: others)) v
  | otherwise (bound : Nat) (frame : FrameId) (test decided other chosen v : Value)
      (decides : Means frames bound frame test decided) (so : decided.isTrue = false)
      (gives : Means frames bound frame chosen v) :
      Means frames bound frame (.list [.sym "if", test, other, chosen]) v
  | skipped (bound : Nat) (frame : FrameId) (test decided other : Value)
      (decides : Means frames bound frame test decided) (so : decided.isTrue = false) :
      Means frames bound frame (.list [.sym "if", test, other]) .nil
  | derived (bound : Nat) (frame : FrameId) (name : String) (form : Derived) (operands : List Value)
      (code v : Value) (found : FormTable.full.find? name = some (.derived form))
      (expanded : form.expand operands = .ok code) (gives : Means frames bound frame code v) :
      Means frames bound frame (.list (.sym name :: operands)) v
  | call (bound : Nat) (frame : FrameId) (head : Value) (operands : List Value) (identity : Nat)
      (params : List Param) (body : List Value) (home : FrameId) (us vs : List Value)
        (inside : FrameId)
      (ordinary : ∀ name, head = .sym name → FormTable.full.find? name = none)
      (fn : Means frames bound frame head (.procedure identity params body home))
      (count : us.length = operands.length) (arity : us.length = params.length)
      (given : ∀ pair ∈ operands.zip us, Means frames inside frame pair.1 pair.2)
      (below : inside < bound) (around : home < inside)
      (outer : (frames.frame inside).outer = some home)
      (bindings : (frames.frame inside).bindings = (params.map fun p => .sym p.name).zip us)
      (length : vs.length = body.length)
      (each : ∀ pair ∈ body.zip vs, Means frames bound inside pair.1 pair.2) :
      Means frames bound frame (.list (head :: operands)) (vs.getLastD .nil)
  | primitive (bound : Nat) (frame : FrameId) (head : Value) (operands : List Value) (p : Primitive)
      (us : List Value) (v : Value)
      (ordinary : ∀ name, head = .sym name → FormTable.full.find? name = none)
      (fn : Means frames bound frame head (.primitive p)) (count : us.length = operands.length)
      (given : ∀ pair ∈ operands.zip us, Means frames bound frame pair.1 pair.2)
        (gives : Gives p us v) :
      Means frames bound frame (.list (head :: operands)) v

end ThunkLisp
