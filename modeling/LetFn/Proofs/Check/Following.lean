import LetFn.Proofs.Check.FirstTypes
import LetFn.Proofs.Check.Levels

/-!
# Runs that follow a reference

`Follows x uses P` compares the log of a run with the uses that a reference expects: the run logs them in their order as
far as it gets, and if it fails for an unknown identifier, the reference knows none there either.

Most steps of the checker know all names (`FailsUnknown` does not hold of them), so `Follows` goes through a run by
`Follows.bind` and comes down to the identifiers.
-/

namespace LetFn.Check

open Context (Ready Step)
open Lexical (Frame hoisted hoistedList hoistedOption hoistedBody)

/-! ## steps that know all names -/

/-- The step fails for an unknown identifier. -/
def FailsUnknown {α : Type} (x : Except Error α) : Prop :=
  ∃ name span related, x = .error ⟨.unknownIdentifier name, span, related⟩

section

variable {α β : Type}

theorem not_failsUnknown_ok (a : α) : ¬ FailsUnknown (.ok a) := nofun

theorem not_failsUnknown_bind {x : Except Error α} {f : α → Except Error β} (hx : ¬ FailsUnknown x)
    (hf : ∀ a, ¬ FailsUnknown (f a)) : ¬ FailsUnknown (x >>= f) := by
  cases x with
  | ok a => exact hf a
  | error e =>
    rintro ⟨name, span, related, h⟩
    exact hx ⟨name, span, related, congrArg _ (Except.error.inj h)⟩

theorem not_failsUnknown_mapM {f : α → Except Error β} (hf : ∀ a, ¬ FailsUnknown (f a)) (xs : List α) :
    ¬ FailsUnknown (xs.mapM f) := by
  induction xs with
  | nil => exact not_failsUnknown_ok _
  | cons x xs ih =>
    rw [List.mapM_cons]
    exact not_failsUnknown_bind (hf x) fun _ => not_failsUnknown_bind ih fun _ => not_failsUnknown_ok _

theorem not_failsUnknown_typeNamedBy (n : Node) : ¬ FailsUnknown (typeNamedBy n) := by
  unfold typeNamedBy Context.resolveTypeName
  split <;> nofun

theorem not_failsUnknown_declare (ctx : Context) (s : ScopeId) (symbol : Symbol) :
    ¬ FailsUnknown (ctx.declare s symbol) := by
  unfold Context.declare
  split
  · nofun
  · split
    · nofun
    · split
      · split <;> nofun
      · nofun

theorem not_failsUnknown_declareFunction (ctx : Context) (s : ScopeId) (name : Token) (ps : List (Param Node))
    (result : Node) (body : Option Node) : ¬ FailsUnknown (declareFunction ctx s name ps result body) := by
  refine not_failsUnknown_bind ?_ fun sig => not_failsUnknown_bind (not_failsUnknown_declare _ _ _) fun _ =>
    not_failsUnknown_ok _
  refine not_failsUnknown_bind (not_failsUnknown_mapM (fun p => not_failsUnknown_typeNamedBy p.type) ps) fun _ => ?_
  exact not_failsUnknown_bind (not_failsUnknown_typeNamedBy result) fun _ => not_failsUnknown_ok _

theorem not_failsUnknown_declareParams (ctx : Context) (ps : List (Param Node)) (ts : List TypeId) :
    ¬ FailsUnknown (declareParams ctx ps ts) := by
  induction ps generalizing ctx ts with
  | nil => exact not_failsUnknown_ok _
  | cons p ps ih =>
    cases ts with
    | nil => exact not_failsUnknown_ok _
    | cons t ts =>
      refine not_failsUnknown_bind (not_failsUnknown_declare _ _ _) fun _ => ?_
      exact not_failsUnknown_bind (ih _ _) fun _ => not_failsUnknown_ok _

theorem not_failsUnknown_callType (ctx : Context) (callee : Node) : ¬ FailsUnknown (callType ctx callee) := by
  simp only [callType]
  split
  · exact not_failsUnknown_ok _
  · rintro ⟨_, _, _, h⟩
    cases h

end

/-! ## runs that follow the reference -/

/-- The log has the uses as far as the run goes: all of them, and then `P` holds of its result, or those before the one
that it fails at, if it fails for an unknown identifier, and then the reference knows no meaning for it either. -/
structure Follows {α : Type} (x : Logged α) (uses : List Use) (P : α → Prop) : Prop where
  log : x.log <+: uses
  ok : ∀ a, x.result = .ok a → x.log = uses ∧ P a
  unknown : ∀ name span related, x.result = .error ⟨.unknownIdentifier name, span, related⟩ →
    x.log ++ [⟨span, name, none⟩] <+: uses

section

variable {α β : Type} {P : α → Prop} {Q : β → Prop} {us vs : List Use}

theorem Follows.bind {x : Logged α} {f : α → Logged β} (hx : Follows x us P)
    (hf : ∀ a, x.result = .ok a → P a → Follows (f a) vs Q) : Follows (x >>= f) (us ++ vs) Q := by
  obtain ⟨log, result⟩ := x
  cases result with
  | ok a =>
    obtain ⟨hlog, ha⟩ := hx.ok a rfl
    obtain ⟨hlog', hok, hunknown⟩ := hf a rfl ha
    obtain rfl : log = us := hlog
    refine ⟨(List.prefix_append_right_inj _).2 hlog', fun b hb => ?_, fun name span related hb => ?_⟩
    · obtain ⟨hlog, hb⟩ := hok b hb
      exact ⟨congrArg (log ++ ·) hlog, hb⟩
    · have := (List.prefix_append_right_inj log).2 (hunknown name span related hb)
      rwa [← List.append_assoc] at this
  | error e =>
    refine ⟨hx.log.trans (List.prefix_append _ _), fun _ hb => absurd hb nofun, fun name span related hb => ?_⟩
    exact (hx.unknown name span related (congrArg _ (Except.error.inj hb))).trans (List.prefix_append _ _)

theorem Follows.imp {P' : α → Prop} {x : Logged α} (hx : Follows x us P) (h : ∀ a, P a → P' a) : Follows x us P' :=
  ⟨hx.log, fun a ha => (hx.ok a ha).imp_right (h a), hx.unknown⟩

theorem Follows.pure {a : α} (h : P a) : Follows (Pure.pure a) [] P :=
  ⟨List.prefix_refl _, fun _ hb => ⟨rfl, Except.ok.inj hb ▸ h⟩, nofun⟩

theorem Follows.lift {x : Except Error α} (hknown : ¬ FailsUnknown x) (h : ∀ a, x = .ok a → P a) :
    Follows (.lift x) [] P :=
  ⟨List.prefix_refl _, fun a ha => ⟨rfl, h a ha⟩, fun name span related he => absurd ⟨name, span, related, he⟩ hknown⟩

/-- A step that types no name, before another. -/
theorem Follows.lift_bind {x : Except Error α} {f : α → Logged β} (hknown : ¬ FailsUnknown x)
    (hf : ∀ a, x = .ok a → Follows (f a) us Q) : Follows (.lift x >>= f) us Q :=
  (Follows.lift hknown fun _ _ => trivial).bind (P := fun _ => True) fun a ha _ => hf a ha

/-- A run with something made of its result. -/
theorem Follows.map {x : Logged α} {f : α → Logged β} (hx : Follows x us P)
    (hf : ∀ a, x.result = .ok a → P a → Follows (f a) [] Q) : Follows (x >>= f) us Q :=
  List.append_nil us ▸ hx.bind hf

end

/-! ## names of definitions -/

theorem function_of_likeness {R : Node → Node → Prop} (hR : Likeness R) {name : Token} {ps qs : List (Param Node)}
    {r r' : Node} (hps : List.Forall₂ (Param.Rel R) ps qs) (hr : R r r') :
    Lexical.function name qs r' = Lexical.function name ps r := by
  rw [Lexical.function, Lexical.function, signature_of_likeness hR hps hr]

end LetFn.Check
