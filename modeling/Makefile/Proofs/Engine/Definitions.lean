import Makefile.Proofs.Engine.States
import Makefile.Proofs.Evaluation.DefineLines

/-!
# Makefiles that define one variable

A makefile whose program is one assignment makes its definition and does nothing else that shows.
So do the lines of a `define`.
-/

namespace Makefile

open Blocks (Grown locate)
open Expansion (CanBegin Sound World)

/-! ## One assignment -/

theorem Action.define_of_free {d : Definition} {s : Session} (h : s.vars.table.get? d.name = none) :
    Action.define d s = .ok true { s with vars := s.vars.store d } := by
  have hretire : Action.retireDefinition d.name s = .ok () s := by
    unfold Action.retireDefinition
    rw [Expansion.get_bind, h]
    rfl
  have hreplace : Action.replace d s = .ok () { s with vars := s.vars.store d } := by
    unfold Action.replace
    rw [bind_eq_of_ok hretire]
    rfl
  unfold Action.define
  rw [Expansion.get_bind, h]
  simp only
  rw [bind_eq_of_ok hreplace]
  rfl

namespace Evaluation

structure Makes (env : Environment) (arena : Expansion.Arena) (a : Assignment) (d : Definition) :
    Prop where
  qualifiers : a.qualifiers = {}
  identifier : Text.isIdentifier d.name = true
  name : ∀ s, operand env arena a.name s = .ok d.name s
  definition : ∀ s, definition env arena a d.name s = .ok (some d) s

theorem operand_plain (env : Environment) {c : Nat} {w : World} {arena : Expansion.Arena}
    (hs : Sound env.functions.signatures c arena w) {id : TextId} {t : Text} (h : w.Reads id t)
    (s : Session) : operand env arena (.plain id) s = .ok t s := by
  change EStateM.Result.ok (arena.text id) s = _
  rw [hs.text_eq h]

section Makes

variable {env : Environment} {arena : Expansion.Arena} {a : Assignment} {d : Definition}
  (h : Makes env arena a d)
include h

theorem Makes.assign {s : Session} (hfree : s.vars.table.get? d.name = none) :
    assign env arena a s = .ok () { s with
      location := some a.location, vars := s.vars.store d } := by
  have hdefine : ∀ s, s.vars.table.get? d.name = none →
      Action.located (Action.define d) s = .ok true { s with vars := s.vars.store d } := by
    intro s hfree
    unfold Action.located
    rw [Action.define_of_free hfree]
  have hnonempty : d.name.isEmpty = false :=
    List.isEmpty_eq_false_iff.2 (Text.ne_nil_of_isIdentifier h.identifier)
  have hname : assignedName env arena a s = .ok d.name { s with location := some a.location } := by
    change (operand env arena a.name >>= _) { s with location := some a.location } = _
    rw [bind_eq_of_ok (h.name _), Text.trim_of_isIdentifier h.identifier, hnonempty]
    rfl
  unfold Evaluation.assign
  rw [bind_eq_of_ok hname, bind_eq_of_ok (h.definition _), h.qualifiers]
  exact bind_eq_of_ok (bind_eq_of_ok (hdefine _ hfree))

theorem Makes.execute {c : Nat} {p : Compiled Program} (harena : p.program.arena = arena)
    (hcode : Grown c p.program.code) (hentry : p.program.entry = locate c 0)
    (hitems : p.program.code.items = [.assign a, .done]) (hwarnings : p.program.warnings = [])
    {s : Session} (hbegin : CanBegin s p.id) (hdepth : s.depth = 0) (hqueued : s.queued = [])
    (hfree : s.vars.table.get? d.name = none) :
    ∃ s', execute env p s = .ok () s' ∧ s'.vars = s.vars.store d ∧
      s'.diagnostics = s.diagnostics := by
  let reader := readFile env (s.config.maxIncludeDepth + 1)
  have hfirst : p.program.code.items[0]? = some (.assign a) := by
    rw [hitems]
    rfl
  have hlast : p.program.code.items[1]? = some .done := by
    rw [hitems]
    rfl
  have hsize : p.program.code.size = 2 := by
    rw [Blocks.size_eq, hitems]
    rfl
  have hmachine : (machine env reader p.program.arena).runFrom ⟨.nestingExhausted, none⟩
      p.program.code p.program.code.size p.program.entry = Evaluation.assign env arena a := by
    rw [hentry, hsize, harena, Machine.runFrom_ordinary _ _ hcode 1 rfl hfirst,
      Machine.runFrom_done _ _ hcode 0 hlast]
    exact bind_pure_unit
  have hrun := h.assign (s := begun s p.id) hfree
  have hreported : reported p.program.warnings s = s := by
    rw [hwarnings]
    rfl
  have hdiagnostics := congrArg Session.diagnostics hreported
  rw [← hmachine, ← hreported] at hrun
  exact ⟨_, execute_of_run hbegin hrun hdepth hqueued, rfl, hdiagnostics⟩

end Makes

theorem Keeps.makes {env : Environment} {c : Nat} {w : World} {arena : Expansion.Arena}
    (hs : Sound env.functions.signatures c arena w) {a : Assignment} {name t : Text}
    (ha : Keeps w a name t) (h : Text.isIdentifier name = true) :
    Makes env arena a ⟨name, t, .recursive, .file⟩ where
  qualifiers := ha.qualifiers
  identifier := h
  name := by
    obtain ⟨id, hid, hreads⟩ := ha.name
    exact hid ▸ operand_plain env hs hreads
  definition := by
    intro s
    have horigin : a.qualifiers.origin = .file := by
      rw [ha.qualifiers]
      rfl
    unfold definition
    simp only [ha.op, horigin, hs.text_eq ha.value]
    rfl

end Evaluation

/-! ## The body of a definition -/

/-- The lines between `define` and `endef`, whatever they are, become the value of a recursive
variable, if every definition among them is ended.  All other variables stay as they are, and no
warning comes up. -/
theorem Engine.eval_definition (env : Evaluation.Environment) (file : Text) {name : Text}
    {body : List Text} {s : Session} (hname : Text.isIdentifier name = true)
    (hlines : ∀ t ∈ body, t.IsLine) (hbody : Text.Balanced body)
    (hfree : s.vars.definition? name = none) :
    ∃ s', Engine.eval env (Text.definition name body) file s = .ok () s' ∧
      s'.vars.definition? name = some ⟨name, Text.join ['\n'] body, .recursive, .file⟩ ∧
      (∀ other, other ≠ name → s'.vars.definition? other = s.vars.definition? other) ∧
      s'.diagnostics = s.diagnostics := by
  obtain ⟨p, a, w, hp, hwarnings, hentry, hcode, hitems, hsound, ha⟩ :=
    Evaluation.compile_definition hname env.functions.signatures s.config.firstBlock file 1 none
      hlines hbody
  obtain ⟨stats, heval⟩ := eval_of_ok (s := s) hp
  have htable : s.vars.table.get? name = none := Option.map_eq_none_iff.1 hfree
  obtain ⟨s', hexecute, hvars, hdiagnostics⟩ := (ha.makes hsound hname).execute
    (p := ⟨s.programs.size, p⟩) rfl hcode hentry hitems hwarnings (canBegin_atStart s stats) rfl rfl
    htable
  have hstored : ∀ key, s'.vars.definition? key = if key = name then
      some ⟨name, Text.join ['\n'] body, .recursive, .file⟩ else s.vars.definition? key := by
    intro key
    rw [hvars]
    exact Variables.definition?_store s.vars _ key
  refine ⟨s', heval.trans hexecute, ?_, ?_, hdiagnostics⟩
  · rw [hstored, if_pos rfl]
  · intro other hother
    rw [hstored, if_neg hother]

/-- A definition in the body, whose `endef` has a comment, a conditional that is left open, a
recipe line, a reference without an end, and a name that looks like a keyword. -/
theorem Engine.eval_definition_nested :
    let body := ["\t@x $(y # z".toList, "ifdef A".toList, " define inner".toList, "".toList,
      "endef # c".toList, "define = \\\\".toList]
    let t := ("define f\n\t@x $(y # z\nifdef A\n define inner\n\nendef # c\n" ++
      "define = \\\\\nendef\n").toList
    Text.Balanced body ∧ Text.definition "f".toList body = t ∧
      ∃ s', Engine.eval {} t "Makefile".toList {} = .ok () s' ∧
        s'.vars.definition? "f".toList = some ⟨"f".toList,
          "\t@x $(y # z\nifdef A\n define inner\n\nendef # c\ndefine = \\\\".toList,
          .recursive, .file⟩ := by
  intro body t
  have hbody : Text.Balanced body := by decide
  have htext : Text.definition "f".toList body = t := by decide
  have hlines : ∀ t ∈ body, Text.IsLine t := by
    simp only [body, List.forall_mem_cons, List.not_mem_nil, false_implies, implies_true]
    decide
  obtain ⟨s', heval, hdefinition, -⟩ :=
    @eval_definition {} "Makefile".toList "f".toList body {} (by decide) hlines hbody rfl
  rw [htext] at heval
  exact ⟨hbody, htext, s', heval, hdefinition⟩

end Makefile
