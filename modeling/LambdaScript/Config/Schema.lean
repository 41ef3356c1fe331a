import LambdaScript.Json.Basic

/-! # Schema of configurations

A JSON schema that describes the JSON form of configurations to editors and validators.
-/

namespace LambdaScript.Config.Schema

def reference (name : String) : Json := .str ("#/$defs/" ++ name)

def scopeMap (description : String) : Json :=
  .obj [
    ("additionalProperties", .obj [("$ref", reference "ContextAnnotation")]),
    ("default", .obj []),
    ("description", .str description),
    ("type", .str "object")]

def scope (name description : String) : Json :=
  .obj [("const", .str name), ("description", .str description), ("type", .str "string")]

def annotations : Json :=
  .obj [
    ("properties", .obj [
      ("members", scopeMap "`Type.member` -> annotation."),
      ("methods", scopeMap "`Type.method` -> annotation."),
      ("types", scopeMap "Type name -> annotation.")]),
    ("type", .str "object")]

def scopes : Json :=
  .obj [
    ("description",
      .str "How an annotated declaration is referenced from generated JavaScript."),
    ("oneOf", .arr [
      scope "global"
        ("Rendered as a bare global name, e.g. `getInfo()`. A presence-only\n" ++
          "annotation means this."),
      scope "this" "On a type: every member access on an instance renders as `this.member`.",
      scope "on-this" "On a member or method: rendered as `this.member`."])]

def properties : Json :=
  .obj [
    ("annotations", .obj [
      ("$ref", reference "AnnotationTable"),
      ("default", .obj [("members", .obj []), ("methods", .obj []), ("types", .obj [])]),
      ("description", .str "Annotation metadata for types, members and methods.")]),
    ("inline", .obj [
      ("default", .bool false),
      ("description", .str "Emit a bare property path instead of a function literal."),
      ("type", .str "boolean")])]

end Schema

def schema : Json :=
  .obj [
    ("$defs", .obj [
      ("AnnotationTable", Schema.annotations),
      ("ContextAnnotation", Schema.scopes)]),
    ("$schema", .str "https://json-schema.org/draft/2020-12/schema"),
    ("properties", Schema.properties),
    ("title", .str "TranslatorConfig"),
    ("type", .str "object")]

end LambdaScript.Config
