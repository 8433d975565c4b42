import Makefile.Proofs.Engine.States
import Makefile.Proofs.Evaluation.IncludeLine

/-!
# Including a file is pasting it

A makefile with an include line does what the makefile does that has the text of the file in its
place, as long as nothing is open there.  The tree of the file is the same, and is run one file
deeper.
-/

namespace Makefile.Engine

open Evaluation (Alike Body Environment IsPart IsTooDeep Program ReadAlike RunsAs Simulates Together
  Worlds compile endsInAssignment includeLine isPlainName joint_initial machine readFile)
open Expansion (Sound World outcome)

/-! ## The instruction -/

section Include

variable {env : Environment} (henv : ∀ f ∈ env.functions.functions, f ∈ Function.builtins)

theorem run_include (reader : Evaluation.FileReader) {arena : Expansion.Arena} {id : TextId}
    {file : Text} (htext : arena.text id = file) (hname : isPlainName file = true)
    (location : Location) (s : Session) :
    (Body.plain (.readFiles .required [.plain id] location) .nil).run (machine env reader arena) []
      s = reader file false location { s with location := some location } := by
  have hwords : ∀ u, Evaluation.allWords env arena [.plain id] u = .ok [file] u := by
    intro u
    change EStateM.Result.ok [Text.words (arena.text id)].flatten u = _
    rw [htext, Text.words_of_isPlainWord (Evaluation.isPlainWord_of_isPlainName hname)]
    rfl
  have hfiles : Evaluation.readFiles env reader arena .required [.plain id] location
      { s with location := some location } =
        reader file false location { s with location := some location } := by
    unfold Evaluation.readFiles
    rw [bind_eq_of_ok (hwords _)]
    change (reader file false location >>= fun _ => pure ()) _ = _
    rw [bind_pure_unit]
  change ((do
    Action.setLocation (some location)
    Evaluation.readFiles env reader arena .required [.plain id] location) >>=
      fun _ => pure ()) s = _
  rw [bind_pure_unit]
  exact hfiles

include henv

theorem simulates_include {config : Config} {arena arena' : Expansion.Arena} {id : TextId}
    {t file : Text} (htext : arena'.text id = file) (hname : isPlainName file = true)
    (hfile : env.includes file = some t) {p : Program}
    (hcompile : compile env.functions.signatures config.firstBlock t file 1 none = .ok p)
    {body body' : Body} (hruns : RunsAs p body'.pieces) {c c' : Nat} {w : Worlds}
    (hleft : Sound env.functions.signatures c arena w.left)
    (hright : Sound env.functions.signatures c' p.arena w.right)
    (hsame : body.Same env.functions.signatures c c' w body') (location : Location) :
    Simulates (Together env.functions.signatures config 0 0) True
      (body.run (machine env (readFile env (config.maxIncludeDepth + 1)) arena) [])
      ((Body.plain (.readFiles .required [.plain id] location) .nil).run
        (machine env (readFile env (config.maxIncludeDepth + 1)) arena') []) := by
  intro s s' h
  rw [run_include _ htext hname]
  have hplaced : Together env.functions.signatures config 0 0 s
      { s' with location := some location } :=
    h.unchanged (fun h => h) (·.of_same rfl) rfl rfl rfl rfl
  rcases Nat.eq_zero_or_pos config.maxIncludeDepth with hzero | hpos
  · -- no file may be included at all
    have hdeep : s'.config.maxIncludeDepth ≤ s'.depth := by
      rw [h.limit', hzero]
      exact Nat.zero_le _
    have hread : readFile env (config.maxIncludeDepth + 1) file false location
        { s' with location := some location } = _ :=
      Evaluation.includeFile_of_deep _ false location hdeep
    rw [hread]
    exact .right trivial ⟨file, _, rfl⟩
  · have hreader : ReadAlike env config 0 1 True (readFile env (config.maxIncludeDepth + 1))
        (readFile env config.maxIncludeDepth) :=
      Evaluation.readAlike_readFile henv rfl rfl (Nat.zero_le _) hpos (.inr trivial)
    refine .readRight henv hplaced hpos hfile ?_ hruns false location fun u' hu' =>
      Evaluation.simulates_tree henv hreader hleft hright hsame s u' hu'
    rw [h.swap.settings]
    exact hcompile

end Include

/-! ## Two makefiles -/

/-- Both succeed, or both fail with the same code and message. -/
def EndAlike : Except RunError Unit → Except RunError Unit → Prop
  | .ok (), .ok () => True
  | .error e, .error e' => e.code = e'.code ∧ e.message = e'.message
  | _, _ => False

/-- Unless files nest too deep, runs that go together end with the same variables, rules and printed
lines. -/
theorem endAlike_of_alike {signatures : Signatures} {config : Config} {d d' : Nat}
    {r r' : EStateM.Result RunError Session Unit}
    (h : Alike (Together signatures config d d') True r r')
    (hr : ∀ e s, r = .error e s → ¬IsTooDeep e) (hr' : ∀ e s, r' = .error e s → ¬IsTooDeep e) :
    EndAlike (outcome r).1 (outcome r').1 ∧
      (outcome r).2.vars.forget = (outcome r').2.vars.forget ∧
      (outcome r).2.rules.map Rule.unplaced = (outcome r').2.rules.map Rule.unplaced ∧
      (outcome r).2.printed = (outcome r').2.printed := by
  cases h with
  | ok a h =>
    exact ⟨trivial, h.vars, Session.rules_of_content h.content,
      Session.printed_of_content h.content⟩
  | @error e e' s s' hcause h =>
    refine ⟨⟨?_, ?_⟩, h.vars, Session.rules_of_content h.content,
      Session.printed_of_content h.content⟩
    · exact congrArg RunCause.code hcause
    · exact congrArg RunCause.message hcause
  | left _ he => exact absurd he (hr _ _ rfl)
  | right _ he => exact absurd he (hr' _ _ rfl)

/-! ## Three programs -/

/-- The programs of a makefile with a text in it, of the one that includes the text instead, and of
the text itself, with their trees. -/
structure Pasting (signatures : Signatures) (hint : Nat) (front t back file main : Text) where
  pasted : Program
  included : Program
  inner : Program
  compile_pasted : compile signatures hint (front ++ t ++ back) main 1 none = .ok pasted
  compile_included :
    compile signatures hint (front ++ includeLine file ++ back) main 1 none = .ok included
  compile_inner : compile signatures hint t file 1 none = .ok inner
  -- the trees of the three parts, in the makefile with the text and elsewhere
  head : Body
  head' : Body
  text : Body
  text' : Body
  tail : Body
  tail' : Body
  id : TextId
  location : Location
  runs_pasted : RunsAs pasted (head.append (text.append tail)).pieces
  runs_included : RunsAs included (head'.append ((Body.plain
    (.readFiles .required [.plain id] location) .nil).append tail')).pieces
  runs_inner : RunsAs inner text'.pieces
  -- what the arenas hold
  capacity : Nat
  worlds : Worlds
  world : World
  sound_pasted : Sound signatures capacity pasted.arena worlds.left
  sound_included : Sound signatures capacity included.arena worlds.right
  sound_inner : Sound signatures capacity inner.arena world
  same_head : head.Same signatures capacity capacity worlds head'
  same_text : text.Same signatures capacity capacity ⟨worlds.left, world⟩ text'
  same_tail : tail.Same signatures capacity capacity worlds tail'
  reads : worlds.right.Reads id file

theorem exists_pasting {signatures : Signatures} {front t back file : Text}
    (hfront : IsPart signatures front) (ht : IsPart signatures t) (hback : IsPart signatures back)
    (hfrontEnd : endsInAssignment signatures front = true)
    (htEnd : endsInAssignment signatures t = true) (hname : isPlainName file = true) (hint : Nat)
    (main : Text) : Nonempty (Pasting signatures hint front t back file main) := by
  obtain ⟨ls, lsT, lsB, hlines, hls, hlsT, hlsB⟩ := Line.exists_ofText_append hfront.complete
    ht.complete (v := back) (by simp [hfront.noReturn, ht.noReturn, hback.noReturn]) 1
  obtain ⟨ls', lsI, lsB', hlines', hls', hlsI, hlsB'⟩ := Line.exists_ofText_append
    hfront.complete (Evaluation.isComplete_includeLine hname) (v := back) (by
      simp [hfront.noReturn, hback.noReturn, Evaluation.return_not_mem_includeLine hname]) 1
  obtain ⟨l, rfl, hl⟩ := Evaluation.eq_singleton_of_includeLine hname hlsI
  -- the front is laid down first, and nothing is open after it
  obtain ⟨v, u, u', head, head', -, hhead, hhead', hlaid, hjoints⟩ :=
    hfront.lay (w := ⟨⟨[], []⟩, ⟨[], []⟩⟩) (joint_initial _ hint (front ++ t ++ back))
      (joint_initial _ hint (front ++ includeLine file ++ back)) main main hls hls'
  obtain ⟨hjoint, hjoint'⟩ := hjoints hfrontEnd
  -- then the text on one side, which is a makefile of its own on the other
  obtain ⟨vT, uT, uT', text, text', hleT, htext, htext', hlaidT, hjointsT⟩ :=
    ht.lay (w := ⟨v.left, ⟨[], []⟩⟩) hjoint (joint_initial _ hint t) main file hlsT
      (List.forall₂_same.2 fun _ _ => rfl)
  obtain ⟨wI, uI, id, location, hleI, hjointI, hreads, hinclude⟩ := hjoint'.addInclude hname hl main
  -- and then the rest
  obtain ⟨vB, uB, uB', tail, tail', hleB, htail, htail', hlaidB, -⟩ :=
    hback.lay (w := ⟨vT.left, wI⟩) (hjointsT htEnd).1 hjointI main main hlsB hlsB'
  have hpasted := hhead.append (htext.append htail)
  have hincluded := hhead'.append (hinclude.append htail')
  rw [← hlines] at hpasted
  rw [← hlines'] at hincluded
  have hle : v.Le vB := ⟨hleT.left.trans hleB.left, hleI.trans hleB.right⟩
  have hleText : vT.Le ⟨vB.left, vT.right⟩ := ⟨hleB.left, .refl _⟩
  obtain ⟨p, hp, harena, hruns⟩ := hpasted.compile none
  obtain ⟨p', hp', harena', hruns'⟩ := hincluded.compile none
  obtain ⟨q, hq, harenaT, hrunsT⟩ := htext'.compile none
  exact ⟨{
    pasted := p, included := p', inner := q
    compile_pasted := hp, compile_included := hp', compile_inner := hq
    head, head', text, text', tail, tail', id, location
    runs_pasted := hruns, runs_included := hruns', runs_inner := hrunsT
    capacity := Blocks.firstCapacity hint, worlds := vB, world := vT.right
    sound_pasted := harena ▸ hlaidB.left
    sound_included := harena' ▸ hlaidB.right
    sound_inner := harenaT ▸ hlaidT.right
    same_head := hlaid.same.mono hle
    same_text := hlaidT.same.mono hleText
    same_tail := hlaidB.same
    reads := hleB.right.log hreads }⟩

section Runs

variable {env : Environment} (henv : ∀ f ∈ env.functions.functions, f ∈ Function.builtins)
include henv

theorem Pasting.simulates {config : Config} {front t back file main : Text}
    (P : Pasting env.functions.signatures config.firstBlock front t back file main)
    (hname : isPlainName file = true) (hfile : env.includes file = some t) :
    Simulates (Together env.functions.signatures config 0 0) True
      ((P.head.append (P.text.append P.tail)).run
        (machine env (readFile env (config.maxIncludeDepth + 1)) P.pasted.arena) [])
      ((P.head'.append ((Body.plain (.readFiles .required [.plain P.id] P.location) .nil).append
          P.tail')).run
        (machine env (readFile env (config.maxIncludeDepth + 1)) P.included.arena) []) := by
  have hreader : ReadAlike env config 0 0 True (readFile env (config.maxIncludeDepth + 1))
      (readFile env (config.maxIncludeDepth + 1)) :=
    Evaluation.readAlike_readFile henv rfl rfl (Nat.zero_le _) (Nat.zero_le _) (.inl rfl)
  have hcommands := Evaluation.machine_execCommands_append env
    (readFile env (config.maxIncludeDepth + 1))
  rw [Body.run_append (hcommands _), Body.run_append (hcommands _), Body.run_append (hcommands _),
    Body.run_append (hcommands _)]
  refine (Evaluation.simulates_tree henv hreader P.sound_pasted P.sound_included P.same_head).bind
    fun _ => ?_
  refine (simulates_include (w := ⟨P.worlds.left, P.world⟩) henv
    (P.sound_included.text_eq P.reads) hname hfile P.compile_inner P.runs_inner P.sound_pasted
    P.sound_inner P.same_text P.location).bind fun _ => ?_
  exact Evaluation.simulates_tree henv hreader P.sound_pasted P.sound_included P.same_tail

end Runs

/-! ## Including and pasting -/

/-- Including a file is the same as pasting its text.  The three texts are makefiles of whole lines,
and nothing is open where they meet.  Unless files nest too deep, both makefiles end alike, with the
same variables, the same rules but for their places, and the same lines printed. -/
theorem eval_include_eq_pasted (env : Environment)
    (henv : ∀ f ∈ env.functions.functions, f ∈ Function.builtins) {front t back file : Text}
    (hfront : IsPart env.functions.signatures front) (ht : IsPart env.functions.signatures t)
    (hback : IsPart env.functions.signatures back)
    (hfrontEnd : endsInAssignment env.functions.signatures front = true)
    (htEnd : endsInAssignment env.functions.signatures t = true)
    (hname : isPlainName file = true) (hfile : env.includes file = some t) {s : Session}
    (hs : Reachable env.functions s) (main : Text)
    (hincluded : ∀ e s', eval env (front ++ includeLine file ++ back) main s = .error e s' →
      ¬IsTooDeep e)
    (hpasted : ∀ e s', eval env (front ++ t ++ back) main s = .error e s' → ¬IsTooDeep e) :
    let included := outcome (eval env (front ++ includeLine file ++ back) main s)
    let pasted := outcome (eval env (front ++ t ++ back) main s)
    EndAlike included.1 pasted.1 ∧
      included.2.vars.forget = pasted.2.vars.forget ∧
      included.2.rules.map Rule.unplaced = pasted.2.rules.map Rule.unplaced ∧
      included.2.printed = pasted.2.printed := by
  intro included pasted
  obtain ⟨P⟩ := exists_pasting hfront ht hback hfrontEnd htEnd hname s.config.firstBlock main
  have halike := alike_eval env henv (hs.resting henv) P.compile_pasted P.compile_included
    P.runs_pasted P.runs_included (P.simulates henv hname hfile)
  exact endAlike_of_alike halike.exchange hincluded hpasted

def objectsText : Text :=
  "ifdef MODE\nprog: main\n\tcc\nendif\nOBJ := a\n".toList

def settingsText : Text :=
  "OBJ += b\nclean:\n\trm $(OBJ)\nMODE = fast\n".toList

def reportText : Text :=
  "$(info $(OBJ) $(MODE))\nlint: $(OBJ)\n".toList

def settingsIncluded : Environment where
  includes := fun file => if file = "settings.mk".toList then some settingsText else none

theorem isPart_settings : IsPart Registry.builtins.signatures objectsText ∧
    IsPart Registry.builtins.signatures settingsText ∧
    IsPart Registry.builtins.signatures reportText := by
  have hpart : ∀ t : Text, ('\r' ∉ t ∧ Line.isComplete t = true ∧
      (compile Registry.builtins.signatures 1 t [] 1 none).isOk = true) →
        IsPart Registry.builtins.signatures t := by
    rintro t ⟨hreturn, hcomplete, hok⟩
    obtain ⟨p, hp⟩ := Evaluation.exists_ok hok
    exact ⟨hreturn, hcomplete, 1, [], 1, none, p, hp⟩
  exact ⟨hpart _ (by decide +kernel), hpart _ (by decide +kernel), hpart _ (by decide +kernel)⟩

def imported : Session :=
  importEnvironment [("MODE".toList, "slow".toList)] {}

/-- The file changes variables from before it, and the rest prints them. -/
theorem eval_include_eq_pasted_settings :
    IsPart settingsIncluded.functions.signatures objectsText ∧
    IsPart settingsIncluded.functions.signatures settingsText ∧
    IsPart settingsIncluded.functions.signatures reportText ∧
    Reachable settingsIncluded.functions imported ∧
    let included := outcome (eval settingsIncluded
      (objectsText ++ includeLine "settings.mk".toList ++ reportText) "Makefile".toList imported)
    let pasted := outcome (eval settingsIncluded (objectsText ++ settingsText ++ reportText)
      "Makefile".toList imported)
    included.1.isOk = true ∧ included.2.printed.captured = #["a b fast".toList] ∧
      included.2.rules.size = 3 ∧
      EndAlike included.1 pasted.1 ∧
      included.2.vars.forget = pasted.2.vars.forget ∧
      included.2.rules.map Rule.unplaced = pasted.2.rules.map Rule.unplaced ∧
      included.2.printed = pasted.2.printed := by
  obtain ⟨hfront, ht, hback⟩ := isPart_settings
  have hs : Reachable settingsIncluded.functions imported :=
    .importEnvironment _ (.start rfl rfl fun _ => rfl)
  have hincluded :
      let included := outcome (eval settingsIncluded
        (objectsText ++ includeLine "settings.mk".toList ++ reportText) "Makefile".toList imported)
      included.1.isOk = true ∧ included.2.printed.captured = #["a b fast".toList] ∧
        included.2.rules.size = 3 := by
    decide +kernel
  have hpasted : (outcome (eval settingsIncluded (objectsText ++ settingsText ++ reportText)
      "Makefile".toList imported)).1.isOk = true := by
    decide +kernel
  have hfails : ∀ {r : EStateM.Result RunError Session Unit}, (outcome r).1.isOk = true →
      ∀ e s', r = .error e s' → ¬IsTooDeep e := by
    rintro r hok e s' rfl
    cases hok
  exact ⟨hfront, ht, hback, hs, hincluded.1, hincluded.2.1, hincluded.2.2,
    eval_include_eq_pasted settingsIncluded (fun _ h => h) hfront ht hback (by decide +kernel)
      (by decide +kernel) (by decide +kernel) rfl hs "Makefile".toList (hfails hincluded.1)
      (hfails hpasted)⟩

end Makefile.Engine
