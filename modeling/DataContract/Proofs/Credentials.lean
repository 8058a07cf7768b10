import Mathlib
import DataContract.Credential
import DataContract.Proofs.Reentry

/-!
# Credentials on a request

A credential is added to the headers or to the query, looked for, and taken off again. Adding a
header replaces the one that is spelled in the same way. Looking for it and taking it off go by
names that may differ in case, and the first such header is the one that is looked at.

1. `Header.find?_put`: a header that is put among others. `Fields.filter_put`: the others are as
   before.
2. `Credential.isAccepted_check_iff`: what a request carries.
3. `Credential.ends_addToHeaders`, `Credential.ends_addToQuery`: adding always gives a result, and
   it is known but for a text that may have been made.
4. `Credential.check_added`: whether a credential that was added is found.
5. `Credential.remove_added`: what is left when it is taken off again.

It is false to expect that every credential that was added is found: a request with a header
`authorization` of its own keeps it in front of the bearer token
(`Credential.not_accepted_lowercase`). Keys for an API are always found.
-/

namespace DataContract

/-! ## 1. One header among others -/

/-- What goes by other names is as before, and in the same order. -/
theorem Fields.filter_put {α : Type} {name : String} {keep : String × α → Bool}
    (dropped : ∀ value, keep (name, value) = false) (value : α) (fields : Fields α) :
    List.filter keep (put name value fields) = List.filter keep fields := by
  have left (value : α) : ¬keep (name, value) = true := Bool.eq_false_iff.mp (dropped value)
  induction fields with
  | nil => exact List.filter_cons_of_neg (left value)
  | cons entry rest ih =>
    obtain ⟨key, old⟩ := entry
    by_cases same : key = name
    · subst same
      rw [put, if_pos rfl, List.filter_cons_of_neg (left value), List.filter_cons_of_neg (left old)]
    · rw [put, if_neg same, List.filter_cons, List.filter_cons, ih]

namespace Header

theorem sameName_self (name : String) : sameName name name = true := beq_self_eq_true _

/-- A header that is put among others is the one that is found, unless one in another spelling comes
first. -/
theorem find?_put (name value : String) (headers : Fields String) :
    find? name (Fields.put name value headers) =
      match List.find? (fun header => sameName header.1 name) headers with
      | none => some value
      | some first => some (if first.1 = name then value else first.2) := by
  induction headers with
  | nil => simp only [Fields.put, find?, List.find?_cons, sameName_self, List.find?_nil,
      Option.map_some]
  | cons header rest ih =>
    obtain ⟨key, old⟩ := header
    by_cases same : key = name
    · subst same
      simp only [Fields.put, find?, List.find?_cons, sameName_self, if_true, Option.map_some]
    · rw [Fields.put, if_neg same, find?, List.find?_cons, List.find?_cons]
      cases sameName key name with
      | true => simp only [Option.map_some, same, if_false]
      | false => exact ih

theorem find?_erase (name : String) (headers : Fields String) :
    find? name (erase name headers) = none := by
  rw [find?, Option.map_eq_none_iff, List.find?_eq_none]
  intro header hm
  have other := (List.mem_filter.mp hm).2
  exact Bool.eq_false_iff.mp ((Bool.not_eq_true' _).mp other)

end Header

/-- A computation that never halts has a value, whatever is drawn. -/
theorem Gen.exists_ok {α : Type} {body : Gen α} {value : α → Prop}
    (h : body.Ends value fun _ => False)
    (rng : Rng) : ∃ a, (body.runFrom rng).1 = .ok a ∧ value a := by
  have ends := h rng
  cases run : (body.runFrom rng).1 with
  | ok a =>
    rw [run] at ends
    exact ⟨a, rfl, ends⟩
  | error halt =>
    rw [run] at ends
    exact ends.elim

namespace Credential

variable {context : Context} {headers : Fields String} {query : List (String × String)}
  {credential : Credential}

/-! ## 2. What a request carries -/

/-- The credential on a request: a bearer token in the first header of its name, a key in any header
or parameter of its name. -/
def OnRequest (headers : Fields String) (query : List (String × String)) : Credential → Prop
  | bearer _ => ∃ text, Header.find? authorization headers = some text ∧ isBearer text = true
  | headerKey name _ => ∃ text, Header.find? name headers = some text
  | queryKey name _ => ∃ text, (name, text) ∈ query

theorem isAccepted_check_iff :
    (credential.check headers query).isAccepted = true ↔ credential.OnRequest headers query := by
  cases credential with
  | bearer token =>
    rw [check, OnRequest]
    cases Header.find? authorization headers with
    | none =>
      refine iff_of_false Bool.false_ne_true ?_
      rintro ⟨_, found, _⟩
      cases found
    | some text =>
      dsimp only
      split
      · next bears => exact iff_of_true rfl ⟨text, rfl, bears⟩
      · next bears =>
        refine iff_of_false Bool.false_ne_true ?_
        rintro ⟨_, found, own⟩
        cases found
        exact absurd own bears
  | headerKey name value =>
    rw [check, OnRequest]
    cases Header.find? name headers with
    | none =>
      refine iff_of_false Bool.false_ne_true ?_
      rintro ⟨_, found⟩
      cases found
    | some text => exact iff_of_true rfl ⟨text, rfl⟩
  | queryKey name value =>
    have sent : query.any (·.1 == name) = true ↔ ∃ text, (name, text) ∈ query := by
      simp only [List.any_eq_true, beq_iff_eq, Prod.exists]
      constructor
      · rintro ⟨_, text, hm, rfl⟩
        exact ⟨text, hm⟩
      · rintro ⟨text, hm⟩
        exact ⟨name, text, hm, rfl⟩
    rw [check, OnRequest, ← sent]
    split
    · next any => exact iff_of_true rfl any
    · next any => exact iff_of_false Bool.false_ne_true any

/-! ## 3. What adding gives -/

/-- The headers with the credential of a given text. -/
def headersWith (text : String) (headers : Fields String) : Credential → Fields String
  | bearer _ => Fields.put authorization ("Bearer " ++ text) headers
  | headerKey name _ => Fields.put name text headers
  | queryKey _ _ => headers

/-- The query with the credential of a given text. -/
def queryWith (text : String) (query : List (String × String)) : Credential → List (String × String)
  | queryKey name _ => query.filter (·.1 != name) ++ [(name, text)]
  | _ => query

/-- A text without bounds can always be made. -/
theorem ends_valueOrMade (context : Context) (value : Option String) :
    (valueOrMade context value).Ends (fun _ => True) fun _ => False := by
  cases value with
  | some text => exact Gen.ends_pure trivial
  | none =>
    have made : Schema.generate context .text = LengthRange.generate ⟨none, none⟩ := rfl
    have bounds : LengthRange.Satisfiable ⟨none, none⟩ := by decide
    rw [valueOrMade, made]
    exact Gen.ends_bind (Gen.ends_mono bounds.generate
      (fun _ _ => Gen.ends_pure trivial) fun _ => id)

/-- What is made with the value: it is known but for a text. -/
theorem ends_withValue {α : Type} (context : Context) (value : Option String) (place : String → α) :
    (valueOrMade context value >>= fun text => pure (place text)).Ends
      (fun made => ∃ text, made = place text) fun _ => False :=
  Gen.ends_bind (Gen.ends_mono (ends_valueOrMade context value)
    (fun text _ => Gen.ends_pure ⟨text, rfl⟩) fun _ => id)

theorem ends_addToHeaders (context : Context) (headers : Fields String) (credential : Credential) :
    (credential.addToHeaders context headers).Ends
      (fun headers' => ∃ text, headers' = credential.headersWith text headers) fun _ => False := by
  cases credential with
  | bearer token => exact ends_withValue context token _
  | headerKey name value => exact ends_withValue context value _
  | queryKey name value => exact Gen.ends_pure ⟨"", rfl⟩

theorem ends_addToQuery (context : Context) (query : List (String × String))
    (credential : Credential) :
    (credential.addToQuery context query).Ends
      (fun query' => ∃ text, query' = credential.queryWith text query) fun _ => False := by
  cases credential with
  | bearer token => exact Gen.ends_pure ⟨"", rfl⟩
  | headerKey name value => exact Gen.ends_pure ⟨"", rfl⟩
  | queryKey name value => exact ends_withValue context value _

/-! ## 4. A credential that was added -/

theorem isBearer_token (text : String) : isBearer ("Bearer " ++ text) = true := by
  rw [isBearer, String.toList_append, List.map_append]
  exact List.isPrefixOf_iff_prefix.mpr ⟨' ' :: text.toList.map Char.toLower, rfl⟩

/-- Nothing on the request hides the credential from the check. The header that is read for a bearer
token is the first one of its name: it is the one that is replaced, or holds a bearer token
itself. -/
def Unhidden (headers : Fields String) : Credential → Prop
  | bearer _ => ∀ first,
      List.find? (fun header => Header.sameName header.1 authorization) headers = some first →
      first.1 = authorization ∨ isBearer first.2 = true
  | _ => True

theorem onRequest_added_iff (text text' : String) :
    credential.OnRequest (credential.headersWith text headers) (credential.queryWith text' query) ↔
      credential.Unhidden headers := by
  cases credential with
  | bearer token =>
    rw [OnRequest, Unhidden, headersWith, Header.find?_put]
    cases List.find? (fun header => Header.sameName header.1 authorization) headers with
    | none =>
      refine iff_of_true ⟨_, rfl, isBearer_token text⟩ fun _ found => ?_
      cases found
    | some first =>
      simp only [Option.some.injEq, exists_eq_left', forall_eq']
      split
      · next same => exact ⟨fun _ => .inl same, fun _ => isBearer_token text⟩
      · next other => exact (or_iff_right other).symm
  | headerKey name value =>
    refine ⟨fun _ => trivial, fun _ => ?_⟩
    rw [OnRequest, headersWith, Header.find?_put]
    split
    · exact ⟨_, rfl⟩
    · exact ⟨_, rfl⟩
  | queryKey name value =>
    exact ⟨fun _ => trivial, fun _ => ⟨text', List.mem_append_right _ (List.mem_singleton_self _)⟩⟩

/-- Adding a credential always gives a result, and the credential is found there exactly when
nothing on the request hides it. -/
theorem check_added (credential : Credential) (context context' : Context) (headers : Fields String)
    (query : List (String × String)) (rng rng' : Rng) :
    ∃ headers' query',
      ((credential.addToHeaders context headers).runFrom rng).1 = .ok headers' ∧
      ((credential.addToQuery context' query).runFrom rng').1 = .ok query' ∧
      ((credential.check headers' query').isAccepted = true ↔ credential.Unhidden headers) := by
  obtain ⟨_, addedHeader, text, rfl⟩ :=
    Gen.exists_ok (ends_addToHeaders context headers credential) rng
  obtain ⟨_, addedPair, text', rfl⟩ :=
    Gen.exists_ok (ends_addToQuery context' query credential) rng'
  refine ⟨_, _, addedHeader, addedPair, ?_⟩
  rw [isAccepted_check_iff, onRequest_added_iff]

/-- A header in lower case that is no bearer token comes with the request. The token that is added
goes behind it, and the request is said to have none. -/
theorem not_accepted_lowercase :
    (((bearer (some "t")).addToHeaders (.ofRegistry .initial)
      [("authorization", "Basic abc")]).runFrom
      (.ofSeed 0)).1 = .ok [("authorization", "Basic abc"), ("Authorization", "Bearer t")] ∧
    (((bearer (some "t")).addToQuery (.ofRegistry .initial) []).runFrom (.ofSeed 0)).1 = .ok [] ∧
    ((bearer (some "t")).check [("authorization", "Basic abc"), ("Authorization", "Bearer t")]
      []).isAccepted = false := by
  refine ⟨rfl, rfl, ?_⟩
  decide +kernel

/-! ## 5. A credential that is taken off -/

/-- Whether a header of this name may hold the credential. -/
def usesHeader (name : String) : Credential → Bool
  | bearer _ => Header.sameName name authorization
  | headerKey own _ => Header.sameName name own
  | queryKey _ _ => false

/-- Whether a parameter of this name may hold the credential. -/
def usesParameter (name : String) : Credential → Bool
  | queryKey own _ => name == own
  | _ => false

theorem removeFromHeaders_eq (headers : Fields String) (credential : Credential) :
    credential.removeFromHeaders headers =
      List.filter (fun header => !credential.usesHeader header.1) headers := by
  cases credential with
  | bearer token => rfl
  | headerKey name value => rfl
  | queryKey name value => exact (List.filter_true headers).symm

theorem removeFromQuery_eq (query : List (String × String)) (credential : Credential) :
    credential.removeFromQuery query = query.filter fun pair =>
      !credential.usesParameter pair.1 := by
  cases credential with
  | bearer token => exact (List.filter_true query).symm
  | headerKey name value => exact (List.filter_true query).symm
  | queryKey name value => rfl

theorem removeFromHeaders_headersWith (text : String) (headers : Fields String)
    (credential : Credential) :
    credential.removeFromHeaders (credential.headersWith text headers) =
      credential.removeFromHeaders headers := by
  rw [removeFromHeaders_eq, removeFromHeaders_eq]
  cases credential with
  | bearer token =>
    exact Fields.filter_put (fun _ => congrArg not (Header.sameName_self authorization)) _ headers
  | headerKey name value =>
    exact Fields.filter_put (fun _ => congrArg not (Header.sameName_self name)) text headers
  | queryKey name value => rfl

theorem removeFromQuery_queryWith (text : String) (query : List (String × String))
    (credential : Credential) :
    credential.removeFromQuery (credential.queryWith text query) =
        credential.removeFromQuery query := by
  cases credential with
  | bearer token => rfl
  | headerKey name value => rfl
  | queryKey name value =>
    have own : [(name, text)].filter (fun pair => pair.1 != name) = [] :=
      List.filter_cons_of_neg (by simp)
    rw [removeFromQuery, queryWith, List.filter_append, own, List.append_nil, List.filter_filter]
    simp only [Bool.and_self, removeFromQuery]

theorem not_onRequest_removed (headers : Fields String) (query : List (String × String))
    (credential : Credential) :
    ¬credential.OnRequest (credential.removeFromHeaders headers)
        (credential.removeFromQuery query) := by
  cases credential with
  | bearer token =>
    rintro ⟨text, found, _⟩
    cases (Header.find?_erase authorization headers).symm.trans found
  | headerKey name value =>
    rintro ⟨text, found⟩
    cases (Header.find?_erase name headers).symm.trans found
  | queryKey name value =>
    rintro ⟨text, hm⟩
    have other := (List.mem_filter.mp hm).2
    exact bne_iff_ne.mp other rfl

/-- Taking a credential off undoes adding it. What is left is what taking it off leaves of the
original request: every header that goes by another name, also when case does not count, and every
parameter of another name, in their order. The credential is not found there. -/
theorem remove_added (credential : Credential) (context context' : Context)
    (headers : Fields String) (query : List (String × String)) (rng rng' : Rng) :
    ∃ headers' query',
      ((credential.addToHeaders context headers).runFrom rng).1 = .ok headers' ∧
      ((credential.addToQuery context' query).runFrom rng').1 = .ok query' ∧
      credential.removeFromHeaders headers' = credential.removeFromHeaders headers ∧
      credential.removeFromQuery query' = credential.removeFromQuery query ∧
      credential.removeFromHeaders headers' =
        List.filter (fun header => !credential.usesHeader header.1) headers ∧
      credential.removeFromQuery query' =
        query.filter (fun pair => !credential.usesParameter pair.1) ∧
      (credential.check (credential.removeFromHeaders headers')
        (credential.removeFromQuery query')).isAccepted = false := by
  obtain ⟨_, addedHeader, text, rfl⟩ :=
    Gen.exists_ok (ends_addToHeaders context headers credential) rng
  obtain ⟨_, addedPair, text', rfl⟩ :=
    Gen.exists_ok (ends_addToQuery context' query credential) rng'
  have sameHeaders := removeFromHeaders_headersWith text headers credential
  have sameQuery := removeFromQuery_queryWith text' query credential
  refine ⟨_, _, addedHeader, addedPair, sameHeaders, sameQuery,
    sameHeaders.trans (removeFromHeaders_eq headers credential),
    sameQuery.trans (removeFromQuery_eq query credential), Bool.eq_false_iff.mpr ?_⟩
  rw [ne_eq, isAccepted_check_iff]
  exact not_onRequest_removed _ _ credential

end Credential
end DataContract
