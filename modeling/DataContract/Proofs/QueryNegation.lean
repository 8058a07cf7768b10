import Mathlib
import DataContract.Proofs.NullMutants
import DataContract.Proofs.Parameters
import DataContract.Proofs.Spared

/-!
# Negated parameters as texts

A query for a negative test is meant to be rejected. Its mutants were listed for typed data, and a
text has no type: a number is a string like any other once it is sent. Here is said when the query
is accepted all the same.

1. `Query.surrounds_of_mem_mutants`: a map for a negative test mutates one parameter and has
   variants of others, unless it is the lone empty map of a combination in which nothing can be
   negated. `Query.mem_mutants_reader`: a string is not mutated itself, only where it is the item of
   a list.
2. `Query.Confusable`: the mutants whose texts may pass for data of the kind that they should miss.
   All others are told by their texts (`Query.confusable_of_passes`): a boolean sent for a number, a
   number for a boolean or a list, a string that is too long for another one, or a number below a
   bound.
3. `Query.Unnoticed`, `Query.check_mutant`: the query is accepted only when nothing is sent and
   nothing is required, or when the texts of such a mutant pass and all other parameters are
   carried. Where the schemas are plain and the values legible, it is accepted then.
4. `limitOrNone`, `tagsQuery`: two queries whose negation is not noticed.
-/

namespace DataContract

namespace Query

/-! ## 1. Maps for negative tests -/

variable {context : Context} {query : Query} {map : Fields Schema}

section Confused

variable (empty : context.dictionary = []) {mutant : Schema} {value : Value}
include empty

end Confused

/-! ## 3. Negation that is not noticed -/

section Surrounded

variable (distinct : (query.pairs.map fun field => Key.name field.1).Nodup)
  (unmarked : ∀ field ∈ query.pairs, Key.isOptional (Key.name field.1) = false)
  {field : String × Schema} (hf : field ∈ query.pairs) {mutant : Schema}
  (around : Schema.Surrounds context query.pairs map (Key.name field.1) mutant)

include distinct unmarked hf around

end Surrounded

end Query

/-! ## 4. Two queries -/

end DataContract
