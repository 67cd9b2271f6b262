import Mathlib

-- The languages the parser knows.

structure LanguageConfig where
  id             : String
  extensions     : List String
  package        : String
  bodyFields     : List String
  fallbackBodies : List String
  stubSuffix     : String
  canonicalMap   : List (String × String)
  deriving DecidableEq, Repr

def LANGUAGES : List LanguageConfig := [
  { id := "python"
    extensions := [".py"]
    package := "tree_sitter_python"
    bodyFields := ["body"]
    fallbackBodies := ["block"]
    stubSuffix := " ..."
    canonicalMap :=
      [("class_definition", "CLASS"), ("function_definition", "FUNCTION")] },
  { id := "javascript"
    extensions := [".js", ".jsx"]
    package := "tree_sitter_javascript"
    bodyFields := ["body"]
    fallbackBodies := ["statement_block"]
    stubSuffix := " \x7b ... \x7d"
    canonicalMap :=
      [("class_declaration", "CLASS"), ("function_declaration", "FUNCTION"),
       ("method_definition", "METHOD"), ("arrow_function", "FUNCTION"),
       ("export_statement", "MODULE")] },
  { id := "typescript"
    extensions := [".ts", ".tsx", ".d.ts"]
    package := "tree_sitter_typescript"
    bodyFields := ["body"]
    fallbackBodies := ["statement_block", "object_type"]
    stubSuffix := " \x7b ... \x7d"
    canonicalMap :=
      [("class_declaration", "CLASS"), ("function_declaration", "FUNCTION"),
       ("method_definition", "METHOD"), ("arrow_function", "FUNCTION"),
       ("interface_declaration", "CLASS"), ("type_alias_declaration", "CLASS"),
       ("function_signature", "FUNCTION"), ("abstract_method_definition", "METHOD"),
       ("export_statement", "MODULE")] },
  { id := "java"
    extensions := [".java"]
    package := "tree_sitter_java"
    bodyFields := ["body"]
    fallbackBodies := ["block"]
    stubSuffix := " \x7b ... \x7d"
    canonicalMap :=
      [("class_declaration", "CLASS"), ("method_declaration", "METHOD"),
       ("interface_declaration", "CLASS"), ("enum_declaration", "CLASS")] },
  { id := "cpp"
    extensions := [".cpp", ".hpp", ".cc", ".hh"]
    package := "tree_sitter_cpp"
    bodyFields := ["body"]
    fallbackBodies := ["compound_statement"]
    stubSuffix := " \x7b ... \x7d"
    canonicalMap :=
      [("class_specifier", "CLASS"), ("function_definition", "FUNCTION"),
       ("struct_specifier", "CLASS")] },
  { id := "c_sharp"
    extensions := [".cs"]
    package := "tree_sitter_c_sharp"
    bodyFields := ["body"]
    fallbackBodies := ["block"]
    stubSuffix := " \x7b ... \x7d"
    canonicalMap :=
      [("class_declaration", "CLASS"), ("method_declaration", "METHOD"),
       ("interface_declaration", "CLASS"), ("struct_declaration", "CLASS"),
       ("enum_declaration", "CLASS")] },
  { id := "c"
    extensions := [".c", ".h"]
    package := "tree_sitter_c"
    bodyFields := ["body"]
    fallbackBodies := ["compound_statement"]
    stubSuffix := " \x7b ... \x7d"
    canonicalMap :=
      [("function_definition", "FUNCTION"), ("struct_specifier", "CLASS")] },
  { id := "go"
    extensions := [".go"]
    package := "tree_sitter_go"
    bodyFields := ["body"]
    fallbackBodies := ["block"]
    stubSuffix := " \x7b ... \x7d"
    canonicalMap :=
      [("function_declaration", "FUNCTION"), ("method_declaration", "METHOD"),
       ("type_declaration", "CLASS")] },
  { id := "rust"
    extensions := [".rs"]
    package := "tree_sitter_rust"
    bodyFields := ["body"]
    fallbackBodies := ["block"]
    stubSuffix := " \x7b ... \x7d"
    canonicalMap :=
      [("function_item", "FUNCTION"), ("struct_item", "CLASS"), ("enum_item", "CLASS"),
       ("trait_item", "CLASS"), ("impl_item", "CLASS"), ("mod_item", "MODULE")] },
  { id := "php"
    extensions := [".php"]
    package := "tree_sitter_php"
    bodyFields := ["body"]
    fallbackBodies := ["compound_statement"]
    stubSuffix := " \x7b ... \x7d"
    canonicalMap :=
      [("class_declaration", "CLASS"), ("function_definition", "FUNCTION"),
       ("method_declaration", "METHOD"), ("interface_declaration", "CLASS"),
       ("trait_declaration", "CLASS")] },
  { id := "ruby"
    extensions := [".rb"]
    package := "tree_sitter_ruby"
    bodyFields := ["body"]
    fallbackBodies := ["do_block", "block"]
    stubSuffix := " ... end"
    canonicalMap :=
      [("class", "CLASS"), ("method", "METHOD"), ("module", "MODULE"),
       ("singleton_method", "METHOD")] },
  { id := "swift"
    extensions := [".swift"]
    package := "tree_sitter_swift"
    bodyFields := ["body"]
    fallbackBodies := ["code_block"]
    stubSuffix := " \x7b ... \x7d"
    canonicalMap :=
      [("class_declaration", "CLASS"), ("function_declaration", "FUNCTION"),
       ("struct_declaration", "CLASS"), ("protocol_declaration", "CLASS"),
       ("enum_declaration", "CLASS")] },
  { id := "kotlin"
    extensions := [".kt", ".kts"]
    package := "tree_sitter_kotlin"
    bodyFields := ["body"]
    fallbackBodies := ["function_body", "class_body"]
    stubSuffix := " \x7b ... \x7d"
    canonicalMap :=
      [("class_declaration", "CLASS"), ("function_declaration", "METHOD"),
       ("object_declaration", "CLASS"), ("interface_declaration", "CLASS")] },
  { id := "sql"
    extensions := [".sql"]
    package := "tree_sitter_sql"
    bodyFields := ["body"]
    fallbackBodies := ["block"]
    stubSuffix := " ..."
    canonicalMap :=
      [("create_table_statement", "CLASS"), ("create_view_statement", "CLASS"),
       ("create_function_statement", "FUNCTION"), ("create_procedure_statement", "FUNCTION")] },
  { id := "bash"
    extensions := [".sh", ".bash"]
    package := "tree_sitter_bash"
    bodyFields := ["body"]
    fallbackBodies := ["compound_statement"]
    stubSuffix := " \x7b ... \x7d"
    canonicalMap :=
      [("function_definition", "FUNCTION")] },
  { id := "r"
    extensions := [".r"]
    package := "tree_sitter_r"
    bodyFields := ["body"]
    fallbackBodies := ["braced_expression"]
    stubSuffix := " \x7b ... \x7d"
    canonicalMap :=
      [("function_definition", "FUNCTION")] },
  { id := "dart"
    extensions := [".dart"]
    package := "tree_sitter_dart"
    bodyFields := ["body"]
    fallbackBodies := ["function_body"]
    stubSuffix := " \x7b ... \x7d"
    canonicalMap :=
      [("class_definition", "CLASS"), ("function_declaration", "FUNCTION"),
       ("method_declaration", "METHOD")] },
  { id := "scala"
    extensions := [".scala"]
    package := "tree_sitter_scala"
    bodyFields := ["body"]
    fallbackBodies := ["template_body", "block"]
    stubSuffix := " \x7b ... \x7d"
    canonicalMap :=
      [("class_definition", "CLASS"), ("function_definition", "METHOD"),
       ("object_definition", "CLASS"), ("trait_definition", "CLASS")] },
  { id := "lua"
    extensions := [".lua"]
    package := "tree_sitter_lua"
    bodyFields := ["body"]
    fallbackBodies := ["block"]
    stubSuffix := " ... end"
    canonicalMap :=
      [("function_definition", "FUNCTION"), ("local_function_definition", "FUNCTION"),
       ("table_constructor", "CLASS")] },
  { id := "perl"
    extensions := [".pl", ".pm"]
    package := "tree_sitter_perl"
    bodyFields := ["body"]
    fallbackBodies := ["block"]
    stubSuffix := " \x7b ... \x7d"
    canonicalMap :=
      [("subroutine_definition", "FUNCTION")] },
  { id := "haskell"
    extensions := [".hs"]
    package := "tree_sitter_haskell"
    bodyFields := ["body"]
    fallbackBodies := ["exp_apply"]
    stubSuffix := " = ..."
    canonicalMap :=
      [("function_declaration", "FUNCTION"), ("data_declaration", "CLASS"),
       ("newtype_declaration", "CLASS"), ("type_declaration", "CLASS")] },
  { id := "objective_c"
    extensions := [".m", ".mm"]
    package := "tree_sitter_objc"
    bodyFields := ["body"]
    fallbackBodies := ["compound_statement"]
    stubSuffix := " \x7b ... \x7d"
    canonicalMap :=
      [("class_interface", "CLASS"), ("class_implementation", "CLASS"),
       ("category_interface", "CLASS"), ("category_implementation", "CLASS"),
       ("function_definition", "FUNCTION"), ("method_definition", "METHOD")] },
  { id := "zig"
    extensions := [".zig"]
    package := "tree_sitter_zig"
    bodyFields := ["body"]
    fallbackBodies := ["block"]
    stubSuffix := " \x7b ... \x7d"
    canonicalMap :=
      [("function_declaration", "FUNCTION"), ("struct_declaration", "CLASS")] },
  { id := "elixir"
    extensions := [".ex", ".exs"]
    package := "tree_sitter_elixir"
    bodyFields := ["body"]
    fallbackBodies := ["do_block"]
    stubSuffix := " do ... end"
    canonicalMap :=
      [("call", "FUNCTION")] },
  { id := "julia"
    extensions := [".jl"]
    package := "tree_sitter_julia"
    bodyFields := ["body"]
    fallbackBodies := ["block"]
    stubSuffix := " ... end"
    canonicalMap :=
      [("function_definition", "FUNCTION"), ("struct_definition", "CLASS"),
       ("module_definition", "MODULE")] } ]

def EXTENSION_TO_LANGUAGE : List (String × String) :=
  [(".py", "python"), (".js", "javascript"), (".jsx", "javascript"), (".ts", "typescript"),
   (".tsx", "typescript"), (".d.ts", "typescript"), (".java", "java"), (".cpp", "cpp"),
   (".hpp", "cpp"), (".cc", "cpp"), (".hh", "cpp"), (".c", "c"), (".h", "c"), (".cs", "c_sharp"),
   (".go", "go"), (".rs", "rust"), (".php", "php"), (".rb", "ruby"), (".swift", "swift"),
   (".kt", "kotlin"), (".kts", "kotlin"), (".sql", "sql"), (".sh", "bash"), (".bash", "bash"),
   (".r", "r"), (".dart", "dart"), (".scala", "scala"), (".lua", "lua"), (".pl", "perl"),
   (".pm", "perl"), (".hs", "haskell"), (".m", "objective_c"), (".mm", "objective_c"),
   (".zig", "zig"), (".ex", "elixir"), (".exs", "elixir"), (".jl", "julia")]
