import CodeRag.Lib.Parallel
import CodeRag.Services.Session
import CodeRag.Storage.Theorems.Sound

-- A small language, file system and embedder, which the services can be run on.

namespace Sample

def encode (s : String) : List UInt8 :=
  s.toList.map fun c => .ofNat c.toNat

def decode (bytes : List UInt8) : String :=
  .ofList (bytes.map fun b => .ofNat b.toNat)

def leaf (type : String) (text : List UInt8) : Node :=
  .mk type none (some text) 0 0 0 0 []

-- A line `# text` is a comment. A line `name=code` is a function.
def line (text : List UInt8) : Node :=
  if text.head? = some 35 then
    leaf "comment" text
  else
    .mk "function_definition" none (some ((text.dropWhile (· ≠ 61)).drop 1)) 0 0 0 0
      [leaf "identifier" (text.takeWhile (· ≠ 61))]

def grammar (source : List UInt8) : Except Exn Node :=
  .ok (.mk "module" none (some source) 0 0 0 0 (((source.splitOn 10).filter (· ≠ [])).map line))

def runtime : Runtime where
  lower         := id
  decode        := decode
  sha256        := id
  loadGrammar _ := .ok grammar

def component (cs : List Char) : Option Component :=
  let s := String.ofList cs
  if h : s ≠ "" ∧ s ≠ "." ∧ '/' ∉ s.toList then some ⟨s, h⟩ else none

-- The files with the given paths and contents. A file with the content `!` cannot be read.
def fileSystem (files : List (String × String)) : FileSystem where
  resolve path := (path.toList.splitOn '/').filterMap component
  read path    :=
    match files.lookup path with
    | some "!"     => .error (.other "Permission denied")
    | some content => .ok (encode content)
    | none         => .error (.other "No such file or directory")
  files root   := (files.map Prod.fst).filter (·.hasPrefix (root ++ "/"))

-- The width of a model is the length of its id.
def models : Models naturals where
  embedding m text     := List.replicate m.length (text.length + (m.toList.map Char.toNat).sum)
  width                := String.length
  length_embedding _ _ := List.length_replicate

def embedder (model : String) : Embedder naturals where
  modelId        := model
  aembed _ texts := .ok (texts.map (models.embedding model))

theorem embedder_computes {model : String} : (embedder model).Computes models := by
  rintro _ _ _ ⟨⟩
  rfl

-- The summarizer gives every unit the same summary.
def stack (model : String) (files : List (String × String)) (summary : String)
    (root : Option String) : IndexStack naturals where
  embedder  := embedder model
  parser    := { runtime := runtime, files := fileSystem files }
  summarize := fun _ _ => .ok summary
  root      := root

-- A directory without ignored files and without dependencies.
def project : Project where
  ignored _      := false
  isFile _       := true
  validatePath p := .ok p
  libraries      := []

-- A sync of all files below a directory, with one worker.
def everything : SyncOptions where
  root           := "/r"
  path           := none
  indexAll       := true
  force          := false
  maxConcurrency := 1

-- What the worker reports, and the state that it leaves.
def worked (stack : IndexStack naturals) (paths : List String) (w : World naturals) :
    List (String × Exn) × World naturals :=
  Pool.sequential (stack.syncPath false) paths w

theorem syncProject_worked {stack : IndexStack naturals} {path : String} {paths : List String}
    {indexAll : Bool} {w w₁ : World naturals} (h : stack.reembedIfDirty indexAll w = .ok () w₁) :
    stack.SyncProject (path :: paths) false indexAll 1 w
      (.ok ((worked stack (path :: paths) w₁).1.map IndexStack.reportWorkerFailure))
      (worked stack (path :: paths) w₁).2 := by
  refine .returned h ?_
  rw [show IndexStack.workerCount (path :: paths) 1 = 1 by simp [IndexStack.workerCount]]
  exact Pool.sequential_outcome

-- What a sync of all files leaves, given those that it selects.
def ran (stack : IndexStack naturals) (paths : List String) (w : World naturals) : World naturals :=
  let stack' := { stack with root := some "/r" }
  (worked stack' paths (stack'.reembedIfDirty true (stack.prelude project everything w).state).state).2

theorem runSync_ran {stack : IndexStack naturals} {path : String} {paths : List String} {w : World naturals}
    (hsel : (stack.prelude project everything w).outcome = .ok (some (path :: paths)))
    (hre : (IndexStack.reembedIfDirty { stack with root := some "/r" } true
      (stack.prelude project everything w).state).outcome = .ok ()) :
    ∃ result, stack.RunSync project everything w (.ok result) (ran stack (path :: paths) w) :=
  ⟨_, .synced (.inr rfl) (EStateM.eq_ok_of_outcome hsel) (syncProject_worked (EStateM.eq_ok_of_outcome hre))⟩

-- The ids of parsed units.
theorem ids_eq {parsed : Except Exn (List KnowledgeUnit)} {units : List KnowledgeUnit}
    {ids : List String} (h : parsed = .ok units) (hi : parsed.map (·.map (·.id)) = .ok ids) :
    units.map (·.id) = ids := by
  rw [h] at hi
  exact Except.ok.inj hi

theorem exists_units {parsed : Except Exn (List KnowledgeUnit)} {ids : List String}
    (h : parsed.map (·.map (·.id)) = .ok ids) :
    ∃ units, parsed = .ok units ∧ units.map (·.id) = ids := by
  cases parsed
  case error    => cases h
  case ok units => exact ⟨units, rfl, ids_eq rfl h⟩

end Sample
