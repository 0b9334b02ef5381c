import QueryBlocks.Json
import QueryBlocks.Query.Clause
import QueryBlocks.Query.Diagnostic

/-! Queries and diagnostics as JSON. Members stand in a fixed order. -/
namespace QueryBlocks

open Json

def Setting.json (s : Setting) : Json := obj [("param", str s.param.text), ("value", str s.value)]

def Filter.json (f : Filter) : Json :=
  obj [("field", str f.field), ("operator", str f.op.token), ("value", str f.value)]

def SortKey.json (k : SortKey) : Json :=
  obj [("field", str k.field), ("direction", str k.direction.token)]

def Mode.json (m : Mode) : Json := str m.text

def Representation.json (r : Representation) : Json := str r.text

def Clause.json : Clause → Json
  | .select mode settings =>
    obj [("clause", str "select"), ("mode", ofOption Mode.json mode),
      ("settings", Json.ofList Setting.json settings)]
  | .cursor mode settings =>
    obj [("clause", str "cursor"), ("mode", mode.json),
      ("settings", Json.ofList Setting.json settings)]
  | .from origin =>
    obj [("clause", str "from"), ("kind", ofOption str origin.kind),
      ("type_name", ofOption str origin.typeName),
      ("representation", ofOption Representation.json origin.representation),
      ("ancestor", ofOption str origin.ancestor)]
  | .where filters =>
    obj [("clause", str "where"), ("filters", Json.ofList Filter.json filters)]
  | .orderBy keys => obj [("clause", str "orderBy"), ("sorts", Json.ofList SortKey.json keys)]
  | .fetchOptions settings =>
    obj [("clause", str "fetchOptions"), ("settings", Json.ofList Setting.json settings)]

def FetchOptions.json (f : FetchOptions) : Json :=
  obj [("limit", ofOption str f.limit), ("offset", ofOption str f.offset),
    ("chunk_size", ofOption str f.chunkSize), ("prefetch_size", ofOption str f.prefetchSize),
    ("start_cursor", ofOption str f.startCursor), ("end_cursor", ofOption str f.endCursor)]

/-- Everything about a query but its clauses. -/
def Query.summary (q : Query) : List (String × Json) :=
  [("selection", q.selection.json), ("cursor", bool q.cursor),
    ("kind", ofOption str q.origin.kind), ("kindless_ancestor", bool q.kindlessAncestor),
    ("type_name", ofOption str q.origin.typeName),
    ("representation", ofOption Representation.json q.origin.representation),
    ("ancestor", ofOption str q.origin.ancestor), ("fetch", q.fetch.json),
    ("filters", Json.ofList Filter.json q.filters), ("sorts", Json.ofList SortKey.json q.sorts),
    ("inequality_field", ofOption str q.inequalityField),
    ("inequality_count", nat q.inequalityCount), ("has_not_equal", bool q.hasNotEqual)]

def Query.json (q : Query) : Json :=
  obj (q.summary ++ [("clauses", Json.ofList Clause.json q.clauses)])

def Diagnostic.json (d : Diagnostic) : Json :=
  obj [("kind", str d.category.text), ("message", str d.message), ("line", nat d.pos.line),
    ("column", nat d.pos.column)]

end QueryBlocks
