import Reshape.CommandLine.Run

/-!
# The steps of a run

A run takes five steps, each of which may have a fault of its own. The first fault is all that a run
leaves behind; without one it writes the transformed input and nothing else. Memory has no bound
here, so that lines can be indented by any width.
-/

namespace Reshape.CommandLine

inductive Stage where
  | readTemplate
  | compileTemplate
  | compileInline
  | checkFormat
  | readInput
  deriving DecidableEq

def Outcome.standardOutput : Outcome → String
  | output text _ => text
  | failure _ => ""
  | usage _ => ""

def faultOf (report : ε → Report) : Except ε α → Option Report
  | .ok _ => none
  | .error fault => some (report fault)

def throughPlan : Option Plan → Value → Value
  | none, v => v
  | some plan, v => plan.apply v

section

variable (world : World Id) (i : Invocation)

/-- A file read in the format that is given, or else in that of its extension. -/
def document (path : String) (format : Option Format) : Except Document.Fault Value := do
  let format ← format.elim (Format.ofPath path) .ok
  let content : Except ReadFault ByteArray := world.fetch path
  let text ← (content.bind Document.textOf).mapError .unreadable
  Document.read format text

def filePlan? (path : String) : Option Plan := do
  (Template.compile (← (document world path none).toOption)).toOption

/-- An inline template is the value its text is as JSON. Text that is not JSON is a string. -/
def inlineResult (text : String) : Except Template.LocatedFault Plan :=
  match Json.read text with
  | .ok template => Template.compile template
  | .error _ => Template.compile (.string text)

def inlinePlan? (text : String) : Option Plan := (inlineResult text).toOption

def forcedFormat? : Option Format := do (Format.ofName (← i.inputFormat)).toOption

/-- The input is the named file, or else all of the standard input. -/
def input : Except Report Value :=
  match i.file with
  | some path =>
    (document world path (forcedFormat? i)).mapError fun fault =>
      ⟨"reading " ++ path, documentCauses fault⟩
  | none => do
    let text ← (Document.textOf world.standardInput).mapError fun fault =>
      ⟨"reading stdin", [fault.message]⟩
    (Document.read ((forcedFormat? i).getD (Format.detect text)) text).mapError fun fault =>
      ⟨"parsing stdin", documentCauses fault⟩

namespace Stage

def templates : List Stage := [readTemplate, compileTemplate, compileInline]

def all : List Stage := templates ++ [checkFormat, readInput]

/-- The report of a step that fails. What the invocation does not ask for cannot fail. -/
def fault? : Stage → Option Report
  | readTemplate => do
    let path ← i.templateFile
    faultOf (⟨"reading template " ++ path, documentCauses ·⟩) (document world path none)
  | compileTemplate => do
    let path ← i.templateFile
    let template ← (document world path none).toOption
    faultOf (⟨"compiling template " ++ path, templateCauses ·⟩) (Template.compile template)
  | compileInline => do
    let text ← i.template
    faultOf (⟨"compiling inline template", templateCauses ·⟩) (inlineResult text)
  | checkFormat => do
    let name ← i.inputFormat
    faultOf (⟨·.message, []⟩) (Format.ofName name)
  | readInput => faultOf id (input world i)

def firstFault? (stages : List Stage) : Option Report := stages.findSome? (fault? world i)

end Stage

open Stage

/-- A computation fails with the first fault of its steps; if there is none, its result has `P`. -/
def Takes (stages : List Stage) (x : Running Id α) (P : α → Prop) : Prop :=
  match firstFault? world i stages with
  | some report => x.run = (Except.error report : Except Report α)
  | none => ∃ a, x.run = (Except.ok a : Except Report α) ∧ P a

end

open Stage

section

variable {world : World Id} {i : Invocation}

theorem takes_pure {P : α → Prop} {a : α} (h : P a) :
    Takes world i [] (pure a : Running Id α) P := ⟨a, rfl, h⟩

@[simp]
theorem firstFault?_append (xs ys : List Stage) :
    firstFault? world i (xs ++ ys) = (firstFault? world i xs).or (firstFault? world i ys) :=
  List.findSome?_append

theorem Takes.bind {xs ys : List Stage} {x : Running Id α} {f : α → Running Id β} {P : α → Prop}
    {Q : β → Prop} (h : Takes world i xs x P) (hNext : ∀ a, P a → Takes world i ys (f a) Q) :
    Takes world i (xs ++ ys) (x >>= f) Q := by
  unfold Takes at h
  rw [Takes, firstFault?_append]
  cases hFault : firstFault? world i xs with
  | some report =>
    rw [hFault] at h
    simp only [Option.some_or, ExceptT.run_bind]
    rw [h]
    rfl
  | none =>
    rw [hFault] at h
    obtain ⟨a, hRun, hP⟩ := h
    have hRest := hNext a hP
    simp only [Option.none_or, ExceptT.run_bind]
    rw [hRun]
    exact hRest

theorem Takes.skip {stage : Stage} {stages : List Stage} {x : Running Id α} {P : α → Prop}
    (hStage : stage.fault? world i = none) (h : Takes world i stages x P) :
    Takes world i (stage :: stages) x P := by
  unfold Takes at h ⊢
  rwa [firstFault?, List.findSome?_cons, hStage]

theorem takes_throw {stage : Stage} {stages : List Stage} {report : Report} {P : α → Prop}
    (h : stage.fault? world i = some report) :
    Takes world i (stage :: stages) (throw report : Running Id α) P := by
  rw [Takes, firstFault?, List.findSome?_cons, h]
  rfl

theorem takes_orReport_bind {stage : Stage} {stages : List Stage} {summary : String}
    {causes : ε → List String} {x : Except ε α} {f : α → Running Id β} {P : β → Prop}
    (hStage : stage.fault? world i = faultOf (⟨summary, causes ·⟩) x)
    (hNext : ∀ a, x = .ok a → Takes world i stages (f a) P) :
    Takes world i (stage :: stages) (orReport summary causes x >>= f) P := by
  cases x with
  | ok a => exact (hNext a rfl).skip hStage
  | error fault => exact takes_throw hStage

theorem load_eq_document (world : World Id) (path : String) (format : Option Format) :
    Document.load world.fetch path format =
      (document world path format : Except Document.Fault Value) := by
  unfold Document.load document
  cases format.elim (Format.ofPath path) .ok with
  | error fault => rfl
  | ok format =>
    change Document.ofBytes format (world.fetch path) =
      ((Except.bind (world.fetch path) Document.textOf).mapError .unreadable).bind _
    unfold Document.ofBytes
    cases Except.bind (world.fetch path) Document.textOf <;> rfl

@[simp]
theorem compile_inlineTemplate (text : String) :
    Template.compile (inlineTemplate text) = inlineResult text := by
  unfold inlineTemplate inlineResult
  cases Json.read text <;> rfl

theorem fileStage_some (world : World Id) (path : String) : fileStage world (some path) =
    (do
      let template ← orReport ("reading template " ++ path) documentCauses
        (document world path none)
      let plan ← orReport ("compiling template " ++ path) templateCauses
        (Template.compile template)
      return [plan] : Running Id (List Plan)) := by
  rw [← load_eq_document]
  rfl

theorem inlineStage_some (text : String) : inlineStage (some text) =
    (do
      let plan ← orReport "compiling inline template" templateCauses (inlineResult text)
      return [plan] : Running Id (List Plan)) := by
  simp [inlineStage]

theorem takes_fileStage : Takes world i [readTemplate, compileTemplate]
    (fileStage world i.templateFile) fun plans =>
      ∃ plan : Option Plan, plans = plan.toList ∧
        i.templateFile.map (filePlan? world) = plan.map some := by
  cases hFile : i.templateFile with
  | none =>
    refine .skip (by simp [fault?, hFile]) (.skip (by simp [fault?, hFile]) ?_)
    exact takes_pure ⟨none, rfl, rfl⟩
  | some path =>
    rw [fileStage_some]
    refine takes_orReport_bind ?_ fun template hTemplate => ?_
    · simp [fault?, hFile]
    refine takes_orReport_bind ?_ fun plan hPlan => ?_
    · simp [fault?, hFile, hTemplate, Except.toOption]
    refine takes_pure ⟨some plan, rfl, ?_⟩
    simp [filePlan?, hTemplate, hPlan, Except.toOption]

theorem takes_inlineStage : Takes world i [compileInline] (inlineStage i.template) fun plans =>
    ∃ plan : Option Plan, plans = plan.toList ∧ i.template.map inlinePlan? = plan.map some := by
  cases hText : i.template with
  | none => exact .skip (by simp [fault?, hText]) (takes_pure ⟨none, rfl, rfl⟩)
  | some text =>
    rw [inlineStage_some]
    refine takes_orReport_bind ?_ fun plan hPlan => ?_
    · simp [fault?, hText]
    refine takes_pure ⟨some plan, rfl, ?_⟩
    simp [inlinePlan?, hPlan, Except.toOption]

theorem takes_forcedFormat : Takes world i [checkFormat] (forcedFormat i.inputFormat)
    fun format => format = forcedFormat? i := by
  cases hName : i.inputFormat with
  | none => exact .skip (by simp [fault?, hName]) (takes_pure (by simp [forcedFormat?, hName]))
  | some name =>
    have hStage : checkFormat.fault? world i = faultOf (⟨·.message, []⟩) (Format.ofName name) := by
      simp [fault?, hName]
    rw [forcedFormat]
    cases hFormat : Format.ofName name with
    | ok format =>
      rw [hFormat] at hStage
      refine Takes.skip hStage (takes_pure ?_)
      simp [forcedFormat?, hName, hFormat, Except.toOption]
    | error fault =>
      rw [hFormat] at hStage
      exact takes_throw hStage

theorem run_orReport (summary : String) (causes : ε → List String) (x : Except ε α) :
    (orReport summary causes x : Running Id α).run =
      (x.mapError (⟨summary, causes ·⟩) : Except Report α) := by
  cases x <;> rfl

theorem run_readInput (world : World Id) (i : Invocation) :
    (CommandLine.readInput world i.file (forcedFormat? i)).run =
      (input world i : Except Report Value) := by
  unfold input
  cases i.file with
  | some path =>
    change (orReport _ _ (Document.load world.fetch path (forcedFormat? i)) :
      Running Id Value).run = _
    rw [load_eq_document]
    exact run_orReport _ _ (document world path (forcedFormat? i))
  | none =>
    change (orReport _ _ (Document.textOf world.standardInput) >>= _ : Running Id Value).run = _
    cases Document.textOf world.standardInput with
    | error fault => rfl
    | ok text => exact run_orReport _ _ (Document.read _ text)

theorem takes_readInput : Takes world i [Stage.readInput]
    (CommandLine.readInput world i.file (forcedFormat? i)) fun v => input world i = .ok v := by
  have hStage : Stage.readInput.fault? world i = faultOf id (input world i) := rfl
  rw [Takes, firstFault?, List.findSome?_singleton, hStage, run_readInput]
  cases input world i with
  | ok v => exact ⟨v, rfl, rfl⟩
  | error report => rfl

theorem takes_transform : Takes world i Stage.all (transform world i) fun result =>
    ∃ (first second : Option Plan) (v : Value),
      i.templateFile.map (filePlan? world) = first.map some ∧
      i.template.map inlinePlan? = second.map some ∧ input world i = .ok v ∧
      result.1 =
        Json.write (i.width.getD 0) (throughPlan second (throughPlan first v)) ++ "\n" := by
  have hAll : Stage.all = [readTemplate, compileTemplate] ++
      ([compileInline] ++ ([checkFormat] ++ ([Stage.readInput] ++ []))) := rfl
  rw [hAll]
  refine takes_fileStage.bind ?_
  rintro _ ⟨first, rfl, hFirst⟩
  refine takes_inlineStage.bind ?_
  rintro _ ⟨second, rfl, hSecond⟩
  refine takes_forcedFormat.bind ?_
  rintro _ rfl
  refine takes_readInput.bind fun v hInput => ?_
  refine takes_pure ⟨first, second, v, hFirst, hSecond, hInput, ?_⟩
  cases first <;> cases second <;> rfl

/-! ## Runs -/

def Outcome.ofResult : Except Report (String × List Notice) → Outcome
  | .ok (text, notices) => .output text notices
  | .error report => .failure report

theorem run_eq_ofResult {arguments : List String}
    (h : Request.ofArguments arguments = .ok (.run i)) (world : World Id) :
    run world arguments = (Outcome.ofResult (transform world i).run : Outcome) := by
  rw [run, h]
  change (match (transform world i).run with
    | .ok (text, notices) => .output text notices
    | .error report => .failure report : Outcome) = _
  cases (transform world i).run <;> rfl

theorem run_of_firstFault? {arguments : List String} {report : Report}
    (h : Request.ofArguments arguments = .ok (.run i))
    (hFault : firstFault? world i Stage.all = some report) :
    run world arguments = (.failure report : Outcome) := by
  have hTakes : Takes world i Stage.all (transform world i) _ := takes_transform
  rw [Takes, hFault] at hTakes
  rw [run_eq_ofResult h, hTakes]
  rfl

theorem document_congr {world' : World Id} {path : String}
    (h : world'.fetch path = world.fetch path) (format : Option Format) :
    document world' path format = document world path format := by
  rw [document, document, h]

theorem fault?_congr {world' : World Id} {i' : Invocation} (hInline : i'.template = i.template)
    (hFile : i'.templateFile = i.templateFile)
    (hFetch : ∀ path, i.templateFile = some path → world'.fetch path = world.fetch path)
    {stage : Stage} (h : stage ∈ templates) : stage.fault? world' i' = stage.fault? world i := by
  have hDocument : ∀ path, i.templateFile = some path →
      document world' path none = document world path none :=
    fun path hPath => document_congr (hFetch path hPath) none
  cases stage with
  | readTemplate | compileTemplate =>
    cases hPath : i.templateFile with
    | none => simp [fault?, hFile, hPath]
    | some path => simp [fault?, hFile, hPath, hDocument path hPath]
  | compileInline => simp only [fault?, hInline]
  | checkFormat | readInput => simp [templates] at h

theorem firstFault?_congr {world' : World Id} {i' : Invocation} (hInline : i'.template = i.template)
    (hFile : i'.templateFile = i.templateFile)
    (hFetch : ∀ path, i.templateFile = some path → world'.fetch path = world.fetch path) :
    firstFault? world' i' templates = firstFault? world i templates := by
  have hStages : ∀ stage ∈ templates, stage.fault? world' i' = stage.fault? world i :=
    fun _ h => fault?_congr hInline hFile hFetch h
  simp only [templates, List.forall_mem_cons] at hStages
  obtain ⟨hRead, hCompile, hInlined, _⟩ := hStages
  simp only [firstFault?, templates, List.findSome?_cons, List.findSome?_nil, hRead, hCompile,
    hInlined]

end

end Reshape.CommandLine
