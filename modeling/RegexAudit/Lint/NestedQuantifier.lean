import RegexAudit.Lint.Diagnostic

/-!
# Nested quantifiers

A quantifier over a plain group that holds nothing but another quantifier can often be written as
one. If one of the two is greedy and the other is not, one of them must have no choice to make.
-/

namespace RegexAudit.NestedQuantifier

/-- A quantifier and what it repeats. -/
structure Quantified where
  bounds : Bounds
  greedy : Bool
  element : Node

/-- The quantifier that is all there is in a plain group. -/
def sole? : Node → Option Quantified
  | .choice .plain [.alternative [.quantifier bounds greedy _ element]] =>
    some ⟨bounds, greedy, element⟩
  | _ => none

/-- Whether the greediness of two quantifiers can be put into one. -/
def canMerge (outer : Bounds) (outerGreedy : Bool) (inner : Quantified) : Bool :=
  outerGreedy == inner.greedy || outer.isFixed || inner.bounds.isFixed

/-- The text of one quantifier in place of two. -/
def merged (bounds : Bounds) (greedy : Bool) (element : Node) : List Char :=
  if bounds.min = 1 && bounds.max = some 1 then element.text
  else element.text ++ bounds.toText ++ if greedy then [] else ['?']

/-- The text in place of a quantifier over a quantifier. The one that has a choice decides whether
the result is greedy. -/
def replacement? : Node → Option (List Char)
  | .quantifier outer outerGreedy _ element => do
    let inner ← sole? element
    if canMerge outer outerGreedy inner then
      let bounds ← inner.bounds.combine? outer
      return merged bounds (if outer.isFixed then inner.greedy else outerGreedy) inner.element
    else none
  | _ => none

def finding? (p : Place) : Option Finding :=
  (replacement? p.node).map fun text =>
    .about p ("These nested quantifiers can be combined into `" ++ String.ofList text ++ "`.")
      (some ⟨p.start, p.stop, text⟩)

def check (subject : Subject) : List Finding := subject.regex.walk.filterMap finding?

end RegexAudit.NestedQuantifier
