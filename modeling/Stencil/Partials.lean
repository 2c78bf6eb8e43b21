import Stencil.Text.Basic

/-!
# Partials

Where the texts of partials come from: any function of the name. A name without a text includes
nothing.
-/

namespace Stencil

abbrev Partials := Text → Option Text

namespace Partials

def empty : Partials := fun _ => none

/-- Partials from a list of names and texts; of two entries with one name the later counts. -/
def ofList (entries : List (Text × Text)) : Partials := fun name =>
  entries.reverse.lookup name

theorem ofList_append (front back : List (Text × Text)) (name : Text) :
    ofList (front ++ back) name = (ofList back name).or (ofList front name) := by
  simp [ofList, List.lookup_append]

end Partials
end Stencil
