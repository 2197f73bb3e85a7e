import PodCompiler.Proofs.Fcode.Cascade
import PodCompiler.Proofs.Jvm.Sequencing
import PodCompiler.Proofs.Lowering.CallingConvention
import PodCompiler.Proofs.Lowering.Simulation

namespace PodCompiler.Lowering

open ClassFile (CodeBuffer)
open Fcode (InPlace ReadsMissing Registers)
open Jvm (Machine fetch)
open Pod (MethodDef VarDef)

section Runs

variable {env : ClassEnv} {f : Frame} {code : Bytes} {out : CodeBuffer} {c c₁ c' : OpenClass}
  {body : BodyState} {mc : MethodCode} {m : Machine} {s s' : Fcode.State} {j : Jvm.State}
  {locals : Jvm.Locals} {regs regs' : Registers}

-- By induction on the run: the machine follows each turn, and a register that holds nothing in the
-- end held nothing before, so that its slot was not stored to.
theorem Execution.runs (hx : Execution env f code out c c₁ body mc m) (hpairs : EntersNoPair code)
    (hmatch : Matches f mc s j) (hentry : ¬Fcode.BehindComparison code s.pc)
    (hruns : (fcodeProgram env f code).Runs s s') :
    ∃ j', m.Reaches j j' ∧ f.Keeps s'.regs j.locals j'.locals ∧ Matches f mc s' j' ∧
      ¬Fcode.BehindComparison code s'.pc := by
  induction hruns with
  | refl => exact ⟨j, .refl, .refl, hmatch, hentry⟩
  | tail _ hturn ih =>
    obtain ⟨j₁, hreach, hkeeps, hmatch₁, hentry₁⟩ := ih
    obtain ⟨hfits, hturn⟩ := hturn
    obtain ⟨j₂, hreach', hkeeps', hmatch₂⟩ := hx.turn hmatch₁ hentry₁ hfits hturn
    exact ⟨j₂, hreach.trans hreach', hkeeps.trans hkeeps' fun _ hr => hturn.eq_none hr, hmatch₂,
      hx.not_behind_of_turn hpairs hmatch₁ hturn⟩

-- The position behind code is that of the end of its fcode.
theorem Lowered.reloc_end (hl : Lowered env f code out c c₁ body mc) :
    mc.reloc[code.size]? = some (some mc.code.pos) := by
  obtain ⟨instrs, its, hs, hder, hitems⟩ := items_of_emitBody hl.emits
  obtain ⟨ps, hmarked, -⟩ := hder.marked hs (Layout.valid_start out code.size)
  have hnote := layout_note out hl.emits hitems (.inl rfl)
  have hpos : mc.code.pos = ((Layout.start out code.size).puts its).out.pos := by
    rw [CodeBuffer.pos, hl.filled.size_eq, body.layout_eq, hitems, Layout.puts_append]
    rfl
  rw [hl.filled.main, hpos]
  rw [hmarked.scope] at hnote
  exact Relocation.mainMap_eq_some_iff.mpr hnote

-- An expression leaves its value behind its code.
theorem Execution.value (hx : Execution env f code out c c₁ body mc m) (hpairs : EntersNoPair code)
    (hholds : f.Holds regs locals) (hroom : f.maxLocals ≤ locals.size) {v : Fcode.Value}
    (hruns : (fcodeProgram env f code).Runs ⟨0, [], regs⟩ ⟨code.size, [v], regs'⟩) :
    ∃ locals', m.Reaches ⟨out.pos, [], locals⟩ ⟨mc.code.pos, [v.toJvm], locals'⟩ ∧
      f.Holds regs' locals' ∧ f.maxLocals ≤ locals'.size ∧ f.Keeps regs' locals locals' := by
  obtain ⟨⟨pc, stack, locals'⟩, hreach, hkeeps, hmatch, -⟩ :=
    hx.runs hpairs (hx.matches_zero hholds hroom) (not_behind_zero code) hruns
  have hpc := hmatch.pc
  rw [hx.lowered.reloc_end] at hpc
  cases hpc
  obtain rfl := hmatch.stack
  exact ⟨locals', hreach, hmatch.locals, hmatch.room, hkeeps⟩

-- An expression that reads a register without a value loads a local without one.
theorem Execution.failsToLoad (hx : Execution env f code out c c₁ body mc m)
    (hpairs : EntersNoPair code) (hholds : f.Holds regs locals) (hroom : f.maxLocals ≤ locals.size)
    (hruns : (fcodeProgram env f code).Runs ⟨0, [], regs⟩ s) {r : UInt16}
    (hreads : (fcodeProgram env f code).IsReading s r) (hnone : s.regs r = none)
    (hfree : ∀ l, f.local? r = some l → locals[l.slot]? = some .free) :
    m.FailsToLoad ⟨out.pos, [], locals⟩ := by
  obtain ⟨j, hreach, hkeeps, hmatch, -⟩ :=
    hx.runs hpairs (hx.matches_zero hholds hroom) (not_behind_zero code) hruns
  obtain ⟨i, hi, hop, rfl⟩ := hreads
  have hnote := hmatch.pc
  rw [hx.lowered.filled.main, Relocation.mainMap_eq_some_iff] at hnote
  obtain ⟨l, next, hl, hfetch⟩ := hx.lowered.fetch_loadVar hnote hi hop
  rw [hx.slot_toNat hl, ← hx.code_eq] at hfetch
  refine ⟨j, _, _, next, hreach, hfetch, ?_⟩
  have hslot : j.locals[l.slot]? = some .free := (hkeeps _ l hl hnone).trans (hfree l hl)
  rw [Jvm.Locals.get?, hslot]

-- What the virtual machine needs to run an expression that was lowered.
theorem execution_of_lowerFragment (hframe : Frame.Consecutive 0 f.maxLocals f.regs.toList)
    (hclass : c.WellFormed env) (h : lowerFragment f code out env c = .ok mc c')
    (hcode : m.code = mc.code.code) (hconstants : m.constants.Extends c'.draft.pool.get?)
    (hliterals : HoldsLiterals env.pod m.statics) :
    ∃ body, Execution env f code out c c' body mc m := by
  obtain ⟨body, hlowered⟩ := lowered_of_lowerFragment h
  obtain ⟨p, c₁, hp, hfinish⟩ := ClassM.bind_eq_ok.mp h
  have hroom := maxLocals_of_finish (ClassM.ofExcept_eq_ok.mp hfinish).1
  have hlt := mc.code.maxLocals.toNat_lt
  exact ⟨body, hlowered, hframe, by omega, hclass, hcode, hconstants, hliterals⟩

end Runs

-- The defaults of parameters, as programs.
def defaultPrograms (env : ClassEnv) (f : Frame) (params : List VarDef) : List Fcode.Program :=
  (params.filterMap VarDef.default?).map (fcodeProgram env f)

section Defaults

variable {env : ClassEnv} {f : Frame} {d : MethodDef} {out all : CodeBuffer} {index : Nat}
  {p : VarDef} {params : List VarDef} {c c₁ c' : OpenClass} {m : Machine} {locals : Jvm.Locals}
  {regs : Registers} {code : Bytes} {mc : MethodCode}

theorem defaultPrograms_cons (h : p.default? = some code) :
    defaultPrograms env f (p :: params) =
      fcodeProgram env f code :: defaultPrograms env f params := by
  simp [defaultPrograms, h]

-- The code of defaults goes on behind what was there.
theorem isPrefix_of_lowerDefaults (h : lowerDefaults d f out index params env c = .ok all c') :
    out.code.toList <+: all.code.toList := by
  induction params generalizing out index c with
  | nil =>
    obtain ⟨rfl, -⟩ := ClassM.pure_eq_ok.mp h
    exact List.prefix_rfl
  | cons p rest ih =>
    obtain ⟨code, fragment, c₁, -, hfragment, hrest⟩ := lowerDefaults_cons h
    obtain ⟨body, hlowered⟩ := lowered_of_lowerFragment hfragment
    exact hlowered.isPrefix.trans (ih hrest)

-- The method in which defaults are run has room for its frame, if there are any.
theorem maxLocals_of_lowerDefaults (hparams : params ≠ [])
    (h : lowerDefaults d f out index params env c = .ok all c') :
    f.maxLocals ≤ all.maxLocals.toNat := by
  induction params generalizing out index c with
  | nil => exact absurd rfl hparams
  | cons p rest ih =>
    obtain ⟨code, fragment, c₁, -, hfragment, hrest⟩ := lowerDefaults_cons h
    cases rest with
    | nil =>
      obtain ⟨rfl, -⟩ := ClassM.pure_eq_ok.mp hrest
      obtain ⟨p, c₂, -, hfinish⟩ := ClassM.bind_eq_ok.mp hfragment
      exact maxLocals_of_finish (ClassM.ofExcept_eq_ok.mp hfinish).1
    | cons q rest => exact ih (by simp) hrest

-- A machine that holds the code of defaults, and the constants and literals that it uses.
structure Hosts (env : ClassEnv) (f : Frame) (m : Machine) (c c' : OpenClass) (all : CodeBuffer) :
    Prop where
  frame : Frame.Consecutive 0 f.maxLocals f.regs.toList
  formed : c.WellFormed env
  code : all.code.toList <+: m.code.toList
  constants : m.constants.Extends c'.draft.pool.get?
  literals : HoldsLiterals env.pod m.statics

-- The first default is run by a machine that has no code behind it.
theorem Hosts.first (hm : Hosts env f m c c' all)
    (hfragment : lowerFragment f code out env c = .ok mc c₁)
    (hrest : lowerDefaults d f mc.code index params env c₁ = .ok all c') :
    (∃ body, Execution env f code out c c₁ body mc { m with code := mc.code.code }) ∧
      m.Extends { m with code := mc.code.code } ∧ Hosts env f m c₁ c' all := by
  have hc₁ := (advancing_lowerFragment _ _ _ _ _ _ _ hfragment hm.formed).1
  have hextends := (advancing_lowerDefaults _ _ _ _ _ _ _ _ _ hrest).extends hc₁
  have hconstants := hm.constants.trans hextends
  have hbegins := (isPrefix_of_lowerDefaults hrest).trans hm.code
  have hx := execution_of_lowerFragment (m := { m with code := mc.code.code }) hm.frame hm.formed
    hfragment rfl hconstants hm.literals
  exact ⟨hx, ⟨hbegins, rfl, rfl⟩, ⟨hm.frame, hc₁, hm.code, hm.constants, hm.literals⟩⟩

-- By induction on the defaults: each pushes its value on those before it, and the next one begins
-- behind it with the same locals.
theorem reaches_of_inPlace {vs : List Fcode.Value}
    (hpairs : ∀ q ∈ defaultPrograms env f params, EntersNoPair q.code)
    (h : lowerDefaults d f out index params env c = .ok all c') (hm : Hosts env f m c c' all)
    (hholds : f.Holds regs locals) (hroom : f.maxLocals ≤ locals.size)
    (hvs : InPlace (defaultPrograms env f params) regs vs) (below : List Jvm.Value) :
    ∃ locals', m.Reaches ⟨out.pos, below, locals⟩
      ⟨all.pos, (vs.map Fcode.Value.toJvm).reverse ++ below, locals'⟩ := by
  induction params generalizing out index c regs locals vs below with
  | nil =>
    obtain ⟨rfl, -⟩ := ClassM.pure_eq_ok.mp h
    cases hvs
    exact ⟨locals, .refl⟩
  | cons p rest ih =>
    obtain ⟨code, mc, c₁, hdefault, hfragment, hrest⟩ := lowerDefaults_cons h
    obtain ⟨⟨body, hx⟩, hextends, hm'⟩ := hm.first hfragment hrest
    rw [defaultPrograms_cons hdefault] at hvs hpairs
    obtain ⟨hpair, hpairs⟩ := List.forall_mem_cons.mp hpairs
    cases hvs with
    | @cons _ _ v vs _ regs' hruns hvs =>
      obtain ⟨locals₁, hreach, hholds₁, hroom₁, -⟩ := hx.value hpair hholds hroom hruns
      obtain ⟨locals', hreach'⟩ := ih hpairs hrest hm' hholds₁ hroom₁ hvs (v.toJvm :: below)
      refine ⟨locals', (hextends.reaches_above below hreach).trans ?_⟩
      rw [List.map_cons, List.reverse_cons, List.append_assoc]
      exact hreach'

-- In the same way: the slots of the parameters that are missing stay free until one is loaded.
theorem failsToLoad_of_readsMissing {first stop : Nat}
    (hpairs : ∀ q ∈ defaultPrograms env f params, EntersNoPair q.code)
    (h : lowerDefaults d f out index params env c = .ok all c') (hm : Hosts env f m c c' all)
    (hholds : f.Holds regs locals) (hroom : f.maxLocals ≤ locals.size)
    (hfree : ∀ (r : UInt16) l, first ≤ r.toNat → r.toNat < stop → f.local? r = some l →
      regs r = none → locals[l.slot]? = some .free)
    (hreads : ReadsMissing first stop (defaultPrograms env f params) regs)
    (below : List Jvm.Value) : m.FailsToLoad ⟨out.pos, below, locals⟩ := by
  induction params generalizing out index c regs locals below with
  | nil => cases hreads
  | cons p rest ih =>
    obtain ⟨code, mc, c₁, hdefault, hfragment, hrest⟩ := lowerDefaults_cons h
    obtain ⟨⟨body, hx⟩, hextends, hm'⟩ := hm.first hfragment hrest
    rw [defaultPrograms_cons hdefault] at hreads hpairs
    obtain ⟨hpair, hpairs⟩ := List.forall_mem_cons.mp hpairs
    cases hreads with
    | @here _ _ _ s r hruns hreads hnone hfirst hstop =>
      have hslot : ∀ l, f.local? r = some l → locals[l.slot]? = some .free :=
        fun l hl => hfree r l hfirst hstop hl (hruns.eq_none hnone)
      exact hextends.failsToLoad_above below
        (hx.failsToLoad hpair hholds hroom hruns hreads hnone hslot)
    | @later _ _ v _ regs' hruns hreads =>
      obtain ⟨locals₁, hreach, hholds₁, hroom₁, hkeeps⟩ := hx.value hpair hholds hroom hruns
      have hrest' := ih hpairs hrest hm' hholds₁ hroom₁
        (fun r l hfirst hstop hl hr => (hkeeps r l hl hr).trans
          (hfree r l hfirst hstop hl (hruns.eq_none hr))) hreads (v.toJvm :: below)
      exact .of_reaches (hextends.reaches_above below hreach) hrest'

end Defaults

end PodCompiler.Lowering
