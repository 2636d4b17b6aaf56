import SignatureInference.DocType
import SignatureInference.Registry.Ancestors

/-! # Evidence from doc comments

Doc comments are taken for observations. A method without a comment, or with one that asks for it,
takes over the tags of the same method in the classes above, the nearest first.
-/
namespace SignatureInference.DocEvidence

variable (r : Registry) (index : Index)

/-- The comment of a method together with the tags it takes over; none if there is nothing in it to
use. -/
def effectiveDoc? (m : Method) : Option DocComment :=
  match m.doc with
  | some doc => if doc.inherits then inherited doc else some doc
  | none => inherited {}
where
  inherited (own : DocComment) : Option DocComment :=
    let doc := ((r.ancestors m.className).drop 1).foldl (fun doc ancestor =>
      match (r.method? ancestor m.name).bind (·.doc) with
      | some above => doc.inheritFrom above ancestor
      | none => doc) own
    if doc.hasTags then some doc else none

/-- The class by whose file the names of a tag are to be read. -/
def tagScope (owner : ClassInfo) (origin : Option ClassName) : ClassInfo :=
  (origin.bind r.class?).getD owner

def resultType? (owner : ClassInfo) (doc : DocComment) : Option TypeValue := do
  let text ← doc.returnType
  DocType.resolve text owner (tagScope r owner doc.returnOrigin) index

def parameterType (owner : ClassInfo) (doc : DocComment) (p : Parameter) : TypeValue :=
  let type := do
    let tag ← doc.param? p.name
    DocType.resolve tag.typeText owner (tagScope r owner tag.origin) index
  type.getD (.unresolved .docComment)

def observations (owner : ClassInfo) (m : Method) (doc : DocComment) : Method where
  className := m.className
  name := m.name
  returns := (resultType? r index owner doc).toList
  calls :=
    if m.parameters.isEmpty || doc.params.isEmpty then []
    else [m.parameters.map (parameterType r index owner doc)]

def evidence? (m : Method) : Option Method := do
  let doc ← effectiveDoc? r m
  let owner := (r.class? m.className).getD { name := m.className }
  let observed := observations r index owner m doc
  if observed.calls.isEmpty && observed.returns.isEmpty then none else some observed

def all : List Method := r.methods.values.filterMap (evidence? r index)

def addTo : Registry := r.observeAll (all r index)

end SignatureInference.DocEvidence
