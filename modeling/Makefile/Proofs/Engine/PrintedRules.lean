import Makefile.Proofs.Engine.States
import Makefile.Proofs.Evaluation.RuleLines

/-!
# Printed rules come back

A makefile that is printed from rules has these rules, wherever they came from.
-/

namespace Makefile

open Evaluation (Body Environment FileReader Lists RuleHeader RunsAs machine printedLines)
open Expansion (CanBegin Sound World)
open Text (unwords)

/-! ## Lines -/

theorem Text.IsLine.cons {c : Char} (hc : c ∉ ['\n', '\r', '\\']) {t : Text} (h : t.IsLine) :
    Text.IsLine (c :: t) := by
  simp only [List.mem_cons, List.not_mem_nil, or_false, not_or] at hc
  refine ⟨?_, ?_, ?_⟩
  · simpa [Ne.symm hc.1] using h.noFeed
  · simpa [Ne.symm hc.2.1] using h.noReturn
  · have hrun : endRun ([] ++ c :: t) = endRun t := endRun_append_cons hc.2.2 [] t
    rw [List.nil_append] at hrun
    rw [hrun]
    exact h.even

theorem Location.exists_render (l : Location) : ∃ numbers : Text,
    l.render = l.file ++ ':' :: numbers ∧ ∀ c ∈ numbers, c = ':' ∨ c.isDigit = true := by
  have hdigits : ∀ (n : Nat) (c : Char), c ∈ Text.ofNat n → c = ':' ∨ c.isDigit = true :=
    fun n c hc => .inr (Nat.isDigit_of_mem_toDigits (by decide) (by decide) hc)
  obtain ⟨file, line, column⟩ := l
  cases column with
  | none => exact ⟨Text.ofNat line, by simp [render], hdigits line⟩
  | some column =>
    refine ⟨Text.ofNat line ++ ':' :: Text.ofNat column, by simp [render], fun c hc => ?_⟩
    rcases List.mem_append.1 hc with hc | hc
    · exact hdigits line c hc
    · exact (List.mem_cons.1 hc).elim .inl (hdigits column c)

theorem Location.isLine_render {l : Location} (h : Evaluation.OnOneLine l.file) :
    l.render.IsLine := by
  obtain ⟨numbers, hrender, hnumbers⟩ := l.exists_render
  -- so a backslash in the name of the file is never the last character
  have hnot : ∀ c : Char, c ≠ ':' → c.isDigit = false → c ∉ numbers := by
    intro c hcolon hdigit hc
    rcases hnumbers c hc with heq | heq
    · exact hcolon heq
    · rw [hdigit] at heq
      cases heq
  have hplain := Text.isLine_of_not_mem (hnot '\n' (by decide) (by decide))
    (hnot '\r' (by decide) (by decide)) (hnot '\\' (by decide) (by decide))
  rw [hrender]
  refine ⟨?_, ?_, ?_⟩
  · simp [h.1, hplain.noFeed]
  · simp [h.2, hplain.noReturn]
  · rw [Text.endRun_append_cons (by decide)]
    exact hplain.even

theorem Rule.IsPrintable.isLine {r : Rule} (h : r.IsPrintable) :
    ∀ t ∈ printedLines r, t.IsLine := by
  have hheader : r.header.IsLine := by
    have hnot : ∀ c : Char, c ∉ [' ', '|', ':'] → Text.isFileChar c = false → c ∉ r.header := by
      intro c hmark hname hc
      rcases h.mem_header hc with rfl | rfl | rfl | hc
      · exact absurd hmark (by decide)
      · exact absurd hmark (by decide)
      · exact absurd hmark (by decide)
      · rw [hname] at hc
        cases hc
    exact Text.isLine_of_not_mem (hnot '\n' (by decide) (by decide))
      (hnot '\r' (by decide) (by decide)) (hnot '\\' (by decide) (by decide))
  intro t ht
  rcases List.mem_cons.1 ht with rfl | ht
  · exact ((Location.isLine_render h.file).cons (by decide)).cons (by decide)
  rcases List.mem_cons.1 ht with rfl | ht
  · exact hheader
  · obtain ⟨c, hc, rfl⟩ := List.mem_map.1 ht
    exact (h.commands c hc).cons (by decide)

theorem Engine.renderRules_eq (rules : List Rule) :
    renderRules rules = Text.unlines (rules.flatMap printedLines) := by
  -- the printer begins a command with the line feed that ends the line before
  have hcommands : ∀ cs : List Text, (cs.flatMap fun c => '\n' :: '\t' :: c) ++ ['\n'] =
      '\n' :: Text.unlines (cs.map ('\t' :: ·)) := by
    intro cs
    induction cs with
    | nil => rfl
    | cons c cs ih => simp [Text.unlines, ih]
  induction rules with
  | nil => rfl
  | cons r rules ih =>
    have happend : Text.unlines (printedLines r ++ rules.flatMap printedLines) =
        Text.unlines (printedLines r) ++ Text.unlines (rules.flatMap printedLines) :=
      List.flatMap_append
    have hrule : "# ".toList ++ r.location.render ++ '\n' :: r.render ++ ['\n'] =
        Text.unlines (printedLines r) := by
      rw [r.render_eq]
      simp only [List.append_assoc, List.cons_append, hcommands]
      simp [Text.unlines, printedLines]
    rw [List.flatMap_cons, happend, ← ih, ← hrule]
    rfl

/-! ## Running -/

section Run

variable {env : Environment} {c : Nat} {w : World} {arena : Expansion.Arena}
  (hs : Sound env.functions.signatures c arena w) (reader : FileReader)
include hs

theorem words_isText {o : Expansion.Operand} {ts : List Text}
    (h : ∀ t ∈ ts, Text.isFileName t = true) (ho : Evaluation.IsText w o (unwords ts))
    (s : Session) : Evaluation.words env arena o s = .ok ts s := by
  obtain ⟨id, rfl, hreads⟩ := ho
  change EStateM.Result.ok (Text.words (arena.text id)) s = _
  rw [hs.text_eq hreads, Text.words_unwords fun t ht =>
    Text.words_of_isPlainWord (Text.isPlainWord_of_isFileName (h t ht))]

theorem exec_startRule {r : Rule} (h : r.IsPrintable) {header : RuleHeader}
    (hheader : header.Spells w r) (s : Session) :
    (machine env reader arena).exec (.startRule header) s = .ok () { s with
      location := some header.location
      rules := s.rules.push { r with location := header.location, commands := [] } } := by
  change (Evaluation.words env arena header.targets >>= _)
    { s with location := some header.location } = _
  rw [bind_eq_of_ok (words_isText hs (fun _ => h.isFileName_target) hheader.targets _),
    bind_eq_of_ok
      (words_isText hs (fun _ => h.isFileName_prerequisite) hheader.prerequisites _),
    bind_eq_of_ok
      (words_isText hs (fun _ => h.isFileName_orderOnly) hheader.orderOnly _),
    hheader.doubleColon]
  rfl

omit hs in
theorem addCommand_push (rules : Array Rule) (r : Rule) (command : Text) :
    addCommand (rules.push r) command =
      rules.push { r with commands := r.commands ++ [command] } := by
  unfold addCommand
  rw [Array.size_push, Nat.add_sub_cancel]
  apply Array.ext
  · simp
  · intro i hi hi'
    rw [Array.getElem_modify, Array.getElem_push, Array.getElem_push]
    have hle : i < rules.size + 1 := by simpa using hi'
    by_cases hlt : i < rules.size
    · rw [if_neg (by omega), dif_pos hlt, dif_pos hlt]
    · rw [if_pos (by omega), dif_neg hlt, dif_neg hlt]

theorem execCommands_push {ids : List TextId} {commands : List Text}
    (hids : List.Forall₂ w.Reads ids commands) (rules : Array Rule) (r : Rule) (s : Session) :
    (machine env reader arena).execCommands ids { s with rules := rules.push r } =
      .ok () { s with rules := rules.push { r with commands := r.commands ++ commands } } := by
  rw [Evaluation.machine_execCommands_eq]
  induction hids generalizing r with
  | nil =>
    rw [List.append_nil]
    rfl
  | @cons id command ids commands hid _ ih =>
    change (List.forM ids _ : Action Unit)
      { s with rules := addCommand (rules.push r) (arena.text id) } = _
    rw [hs.text_eq hid, addCommand_push, ih, List.append_assoc]
    rfl

omit hs in
theorem run_recipes {ε σ : Type} (m : Evaluation.Machine ε σ) (ids lines : List TextId)
    (body : Body) : Body.run m lines (ids.foldr .recipe body) = body.run m (lines ++ ids) := by
  induction ids generalizing lines with
  | nil => rw [List.append_nil]; rfl
  | cons id ids ih =>
    change Body.run m (lines ++ [id]) (ids.foldr .recipe body) = _
    rw [ih, List.append_assoc]
    rfl

theorem run_lists {body : Body} {rules : List Rule} (hlists : Lists w body rules)
    (h : ∀ r ∈ rules, r.IsPrintable) (s : Session) :
    ∃ location rs, body.run (machine env reader arena) [] s =
        .ok () { s with location, rules := s.rules ++ List.toArray rs } ∧
      rs.map Rule.unplaced = rules.map Rule.unplaced := by
  induction hlists generalizing s with
  | nil =>
    refine ⟨s.location, [], ?_, rfl⟩
    rw [Array.append_empty]
    rfl
  | @cons header ids body r rules hheader hids _ ih =>
    obtain ⟨hr, hrules⟩ := List.forall_mem_cons.1 h
    -- the rule is entered without commands, and they are added before the rules after it are run
    let r' : Rule := { r with location := header.location }
    obtain ⟨location, rs, hrun, hrs⟩ := ih hrules
      { s with location := some header.location, rules := s.rules.push r' }
    have hcommands := execCommands_push hs reader hids s.rules { r' with commands := [] }
      { s with location := some header.location }
    refine ⟨location, r' :: rs, ?_, ?_⟩
    · change ((machine env reader arena).exec (.startRule header) >>= fun _ =>
        Body.run (machine env reader arena) [] (ids.foldr .recipe body)) s = _
      rw [bind_eq_of_ok (exec_startRule hs reader hr hheader s), run_recipes, List.nil_append,
        body.run_lines (Evaluation.machine_execCommands_append env reader arena),
        bind_eq_of_ok hcommands]
      exact hrun.trans (by simp)
    · rw [List.map_cons, List.map_cons, hrs]
      rfl

end Run

theorem Evaluation.execute_lists {env : Environment} {c : Nat} {w : World}
    {p : Compiled Evaluation.Program}
    (hsound : Sound env.functions.signatures c p.program.arena w) {body : Body}
    (hruns : RunsAs p.program body.pieces) {rules : List Rule} (hlists : Lists w body rules)
    (h : ∀ r ∈ rules, r.IsPrintable) {s : Session} (hbegin : CanBegin s p.id) (hdepth : s.depth = 0)
    (hqueued : s.queued = []) :
    ∃ s' rs, execute env p s = .ok () s' ∧ s'.rules = s.rules ++ List.toArray rs ∧
      rs.map Rule.unplaced = rules.map Rule.unplaced := by
  obtain ⟨location, rs, hbody, hrs⟩ := run_lists hsound
    (readFile env (s.config.maxIncludeDepth + 1)) hlists h
    (begun (reported p.program.warnings s) p.id)
  rw [← hruns.runFrom_eq body rfl _ ⟨.nestingExhausted, none⟩] at hbody
  exact ⟨_, rs, execute_of_run hbegin hbody hdepth hqueued, rfl, hrs⟩

/-! ## The round trip -/

/-- The text that rules are printed as adds the same rules, in the same order, to those that are
there: they differ in their places only. -/
theorem Engine.eval_renderRules (env : Environment) (file : Text) {rules : List Rule}
    (h : ∀ r ∈ rules, r.IsPrintable) (s : Session) :
    ∃ s' rs, Engine.eval env (renderRules rules) file s = .ok () s' ∧
      s'.rules = s.rules ++ List.toArray rs ∧
      rs.map Rule.unplaced = rules.map Rule.unplaced := by
  have hlines : ∀ t ∈ rules.flatMap printedLines, t.IsLine := by
    intro t ht
    obtain ⟨r, hr, ht⟩ := List.mem_flatMap.1 ht
    exact (h r hr).isLine t ht
  have hshows := Line.ofText_unlines hlines 1
  rw [← renderRules_eq] at hshows
  let initial := Evaluation.State.initial s.config.firstBlock (renderRules rules)
  obtain ⟨body, u, w, hstretch, -, hsound, hlists⟩ :=
    Evaluation.exists_stretch_rules ⟨env.functions.signatures, file⟩ h hshows (s := initial)
      ⟨rfl, rfl⟩ (Evaluation.sound_initial env.functions.signatures s.config.firstBlock _)
  obtain ⟨p, hp, harena, hruns⟩ := hstretch.compile none
  obtain ⟨stats, heval⟩ := eval_of_ok (s := s) hp
  obtain ⟨s', rs, hexecute, hrules, hrs⟩ :=
    Evaluation.execute_lists (p := ⟨s.programs.size, p⟩) (harena ▸ hsound) hruns hlists h
      (canBegin_atStart s stats) rfl rfl
  exact ⟨s', rs, heval.trans hexecute, hrules, hrs⟩

/-- Names and commands with all kinds of marks, the first command being empty. -/
theorem Engine.eval_renderRules_marks :
    let rules : List Rule := [
      { targets := ["all".toList, "%.o".toList], prerequisites := ["a-b.c".toList]
        orderOnly := ["out/x_1".toList], doubleColon := true
        location := ⟨"a\\b c".toList, 3, some 7⟩
        commands := ["".toList, " @x # $(y): z := \\\\".toList] },
      { targets := ["define.x".toList], prerequisites := [], orderOnly := [], doubleColon := false
        location := ⟨"m".toList, 10, none⟩ }]
    renderRules rules = ("# a\\b c:3:7\nall %.o:: a-b.c | out/x_1\n\t\n" ++
        "\t @x # $(y): z := \\\\\n# m:10\ndefine.x:\n").toList ∧
      ∃ s', Engine.eval {} (renderRules rules) "Makefile".toList {} = .ok () s' ∧
        s'.rules.toList.map Rule.unplaced = rules.map Rule.unplaced := by
  intro rules
  have hprintable : ∀ r ∈ rules, r.IsPrintable := by
    refine List.forall_mem_cons.2 ⟨⟨by decide, List.all_eq_true.1 (by decide), ?_, ?_, by decide⟩,
      List.forall_mem_cons.2 ⟨⟨by decide, List.all_eq_true.1 (by decide), ?_, ?_, by decide⟩,
        List.forall_mem_nil _⟩⟩
    · rintro t ⟨⟩
      decide
    · exact List.forall_mem_cons.2 ⟨by decide, List.forall_mem_cons.2
        ⟨by decide, List.forall_mem_nil _⟩⟩
    · rintro t ⟨⟩
      decide
    · exact List.forall_mem_nil _
  obtain ⟨s', rs, heval, hrules, hrs⟩ := eval_renderRules {} "Makefile".toList hprintable {}
  refine ⟨by decide, s', heval, ?_⟩
  rw [hrules, ← hrs]
  simp

end Makefile
