import DataContract.Fields

/-!
# Header names

Header names are the same when they differ only in the case of ASCII letters.
-/

namespace DataContract
namespace Header

/-- The same header name. -/
def sameName (a b : String) : Bool := a.toList.map Char.toLower == b.toList.map Char.toLower

/-- The first header of that name. -/
def find? (name : String) (headers : Fields String) : Option String :=
  (List.find? (fun header => sameName header.1 name) headers).map (·.2)

/-- The headers without those of a name. -/
def erase (name : String) (headers : Fields String) : Fields String :=
  List.filter (fun header => !sameName header.1 name) headers

end Header
end DataContract
