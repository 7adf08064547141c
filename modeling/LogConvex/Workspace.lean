import LogConvex.Model

/- Several models side by side. A model's identity is its place in the order of
   creation, so no two models share one, and a variable handle names one model for
   good. A copy is a new model: it has everything the other has but does not accept
   the other's handles. -/
namespace LogConvex

/-- The models created so far; each stands at the place that its identity names. -/
structure Workspace (R : Type) where
  models : List (Model R)

namespace Workspace

variable {R : Type}

def empty : Workspace R := ⟨[]⟩

/-- The model with an identity. -/
def get? (w : Workspace R) (id : ModelId) : Option (Model R) := w.models[id]?

/-- Adds a copy of a model under a fresh identity. -/
def adopt (w : Workspace R) (m : Model R) : Workspace R × ModelId :=
  let id := w.models.length
  (⟨w.models ++ [{ m with id := id }]⟩, id)

/-- Creates a model without declarations. -/
def create [Scalar R] (w : Workspace R) (kind : ModelKind) : Workspace R × ModelId :=
  w.adopt (.empty w.models.length kind)

/-- Puts a model at the place that its identity names. -/
def put (w : Workspace R) (m : Model R) : Workspace R := ⟨w.models.set m.id m⟩

end Workspace

end LogConvex
