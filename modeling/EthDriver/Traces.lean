import Mathlib.Data.List.Basic

namespace EthDriver.Traces

variable {ε β : Type}

/-- The switches strictly alternate, starting with `true`, and the last one is the
present level. -/
inductive Alternates : List Bool → Bool → Prop
  | nil : Alternates [] false
  | snoc {l : List Bool} {b : Bool} : Alternates l b → Alternates (l ++ [!b]) (!b)

namespace Alternates

variable {f : ε → Option Bool} {trace es : List ε} {b : Bool}

theorem keep (h : Alternates (trace.filterMap f) b) (he : es.filterMap f = []) :
    Alternates ((trace ++ es).filterMap f) b := by
  rwa [List.filterMap_append, he, List.append_nil]

theorem toggle (h : Alternates (trace.filterMap f) b) (he : es.filterMap f = [!b]) :
    Alternates ((trace ++ es).filterMap f) (!b) := by
  rw [List.filterMap_append, he]
  exact .snoc h

end Alternates

def last (f : ε → Option β) (trace : List ε) : Option β := (trace.filterMap f).getLast?

variable {f : ε → Option β} {es : List ε}

theorem last_keep (he : es.filterMap f = []) (trace : List ε) :
    last f (trace ++ es) = last f trace := by
  rw [last, last, List.filterMap_append, he, List.append_nil]

theorem last_concat {e : ε} {v : β} (he : f e = some v) (trace : List ε) :
    last f (trace ++ [e]) = some v := by
  simp [last, he]

end EthDriver.Traces
