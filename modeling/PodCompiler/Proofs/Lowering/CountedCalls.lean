import PodCompiler.Proofs.Lowering.CallingConvention
import PodCompiler.Proofs.Lowering.InterfaceCalls

namespace PodCompiler

namespace Lowering

open ClassFile (CodeBuffer Constants MethodInfo)
open ClassFile.Op
open Pod (MethodDef VarDef)

-- A walk over code meets calls through interfaces only if they count their arguments.
def AllCallsCounted (env : ClassEnv) (k : Constants) (code : Bytes) : Prop :=
  ∃ starts, Walk code 0 starts code.size ∧
    ∀ pc ∈ starts, code[pc]? = some invokeInterface → CallsCounted env k code pc

-- The same for code that a class file can hold.
def Counting (env : ClassEnv) (k : Constants) (b : CodeBuffer) : Prop :=
  b.code.size ≤ CodeBuffer.maxSize → AllCallsCounted env k b.code

section Code

variable {env : ClassEnv} {k k' : Constants} {b b' : CodeBuffer}

theorem CallsCounted.extends {code : Bytes} {pc : Nat} (h : CallsCounted env k code pc)
    (hk : Constants.Extends k' k) : CallsCounted env k' code pc := by
  obtain ⟨i, count, r, hspells, hr⟩ := h
  exact ⟨i, count, r, hspells, hr.extends hk⟩

theorem AllCallsCounted.extends {code : Bytes} (h : AllCallsCounted env k code)
    (hk : Constants.Extends k' k) : AllCallsCounted env k' code := by
  obtain ⟨starts, hwalk, hcalls⟩ := h
  exact ⟨starts, hwalk, fun pc hpc hop => (hcalls pc hpc hop).extends hk⟩

theorem Counting.extends (h : Counting env k b) (hk : Constants.Extends k' k) :
    Counting env k' b :=
  fun hsize => (h hsize).extends hk

theorem counting_sized (env : ClassEnv) (k : Constants) (maxStack maxLocals : Nat) :
    Counting env k (CodeBuffer.sized maxStack maxLocals) :=
  fun _ => ⟨[], (CodeBuffer.sound_sized maxStack maxLocals).walk, nofun⟩

-- Code with more behind it.
theorem Counting.append {starts : List Nat} (h : Counting env k b)
    (hbegins : b.code.toList <+: b'.code.toList)
    (hsize : b'.code.size ≤ CodeBuffer.maxSize)
    (hwalk : Walk b'.code b.code.size starts b'.code.size)
    (hcalls : ∀ pc ∈ starts, b'.code[pc]? = some invokeInterface → CallsCounted env k b'.code pc) :
    AllCallsCounted env k b'.code := by
  obtain ⟨more, hmore⟩ := hbegins
  have hle := hwalk.le
  have hsame : ∀ j, j < b.code.size → b'.code[j]? = b.code[j]? := by
    intro j hj
    rw [← Array.getElem?_toList, ← Array.getElem?_toList, ← hmore,
      List.getElem?_append_left (by simpa using hj)]
  obtain ⟨before, hbefore, hcounted⟩ := h (hle.trans hsize)
  refine ⟨before ++ starts, (hbefore.congr hle fun j _ hj => hsame j hj).append hwalk, ?_⟩
  intro pc hpc hop
  obtain hpc | hpc := List.mem_append.mp hpc
  · obtain ⟨hlt, n, hn, -, hend⟩ := hbefore.length?_of_mem hpc
    rw [hsame pc hlt] at hop
    obtain ⟨i, count, r, hspells, hr⟩ := hcounted pc hpc hop
    refine ⟨i, count, r, ?_, hr⟩
    intro j hj
    have hj' := hspells j hj
    have hlt' : pc + j < b.code.size := by
      by_contra hge
      rw [Array.getElem?_eq_none (by omega), List.getElem?_eq_getElem hj] at hj'
      cases hj'
    rw [hsame _ hlt', hj']
  · exact hcalls pc hpc hop

-- Instructions that are lowered behind code.
theorem Lowered.counting {f : Frame} {code : Bytes} {out : CodeBuffer} {c c₁ : OpenClass}
    {body : BodyState} {mc : MethodCode} (hl : Lowered env f code out c c₁ body mc)
    (hc : c.WellFormed env) (hout : Counting env c₁.draft.pool.get? out) :
    Counting env c₁.draft.pool.get? mc.code := by
  intro hsize
  obtain ⟨starts, hwalk, hcalls⟩ := hl.exists_walk hc hsize
  exact hout.append hl.isPrefix hsize hwalk hcalls

-- Items that write one instruction each, none of which is a call through an interface.
def Item.isStraight {ρ : Type} : Item ρ → Bool
  | .op o => fixedLength? o = some 1
  | .const o _ => fixedLength? o = some 3
  | .load _ _ => true
  | _ => false

def Item.Straight {ρ : Type} (items : List (Item ρ)) : Prop :=
  items.all isStraight = true

theorem Item.straight_cons {ρ : Type} {x : Item ρ} {xs : List (Item ρ)} :
    Straight (x :: xs) ↔ x.isStraight = true ∧ Straight xs := by
  simp [Straight]

theorem Item.straight_append {ρ : Type} {xs ys : List (Item ρ)} :
    Straight (xs ++ ys) ↔ Straight xs ∧ Straight ys := by
  simp [Straight]

theorem exists_walk_of_straight {code : Bytes} {pos : Nat} {its : List (Item UInt16)}
    (hits : Item.Straight its) (h : code.Spells pos (itemBytes its)) :
    ∃ starts, Walk code pos starts (pos + (itemBytes its).length) ∧
      ∀ pc ∈ starts, code[pc]? ≠ some invokeInterface := by
  induction its generalizing pos with
  | nil => exact ⟨[], .done, nofun⟩
  | cons x rest ih =>
    obtain ⟨hx, hrest⟩ := Item.straight_cons.mp hits
    have hbytes : itemBytes (x :: rest) = x.raw 0 ++ itemBytes rest := List.flatMap_cons
    rw [hbytes] at h ⊢
    obtain ⟨hfirst, hmore⟩ := Bytes.spells_append.mp h
    obtain ⟨hwalk, hne⟩ : Walk code pos [pos] (pos + (x.raw 0).length) ∧ (x.raw 0).length ≠ 5 := by
      cases x with
      | op o =>
        have ho : fixedLength? o = some 1 := by simpa [Item.isStraight] using hx
        have hop := (Bytes.spells_cons.mp hfirst).1
        exact ⟨(Segment.fixed (P := fun _ => True) hop ho (by decide)).walk, by simp [Item.raw]⟩
      | const o r =>
        have ho : fixedLength? o = some 3 := by simpa [Item.isStraight] using hx
        have hop := (Bytes.spells_cons.mp hfirst).1
        refine ⟨.single (Array.getElem?_eq_some_iff.mp hop).1 (length?_of_fixed hop ho), ?_⟩
        simp [Item.raw]
      | load t slot =>
        refine ⟨(segment_load (P := fun _ => True) hfirst).walk, ?_⟩
        rw [Item.length_raw rfl]
        intro hfive
        obtain ⟨i, count, heq⟩ := Item.eq_interface_of_size hfive
        cases heq
      | _ => cases hx
    obtain ⟨starts, hwalk', hcalls⟩ := ih hrest hmore
    refine ⟨[pos] ++ starts, ?_, ?_⟩
    · rw [List.length_append, ← Nat.add_assoc]
      exact hwalk.append hwalk'
    · intro pc hpc
      obtain hpc | hpc := List.mem_append.mp hpc
      · obtain rfl := List.mem_singleton.mp hpc
        exact fun hop => hne (length_of_walk hwalk hop)
      · exact hcalls pc hpc

-- Items behind code.
theorem Counting.straight {its : List (Item UInt16)} (h : Counting env k b)
    (hits : Item.Straight its)
    (hcode : b'.code.toList = b.code.toList ++ itemBytes its) : Counting env k b' := by
  intro hsize
  have hlength : b'.code.size = b.code.size + (itemBytes its).length := by
    rw [← Array.length_toList, hcode]
    simp
  have hspells : b'.code.Spells b.code.size (itemBytes its) := by
    intro j hj
    rw [← Array.getElem?_toList, hcode, List.getElem?_append_right (by simp)]
    simp
  obtain ⟨starts, hwalk, hnone⟩ := exists_walk_of_straight hits hspells
  rw [← hlength] at hwalk
  exact h.append ⟨_, hcode.symm⟩ hsize hwalk fun pc hpc hop => absurd hop (hnone pc hpc)

theorem straight_of_interned {c c' : OpenClass} {items : List (Item Ref)}
    {its : List (Item UInt16)} (h : Item.Interned env c items its c')
    (hitems : Item.Straight items) : Item.Straight its := by
  induction h with
  | nil => rfl
  | @cons _ _ _ i j _ _ hj _ ih =>
    obtain ⟨hi, hrest⟩ := Item.straight_cons.mp hitems
    refine Item.straight_cons.mpr ⟨?_, ih hrest⟩
    cases i with
    | const o r =>
      obtain ⟨x, -, rfl⟩ := ClassM.map_eq_ok.mp hj
      exact hi
    | op o | load t slot =>
      cases hj
      exact hi
    | _ => cases hi

theorem Item.isInert_of_isStraight {ρ : Type} {x : Item ρ} (h : x.isStraight = true) :
    x.isInert = true := by
  cases x with
  | op | const | load => rfl
  | _ => cases h

-- Items that are written behind code.
theorem Counting.assemble {c c' : OpenClass} {items : List (Item Ref)} (h : Counting env k b)
    (hitems : Item.Straight items)
    (hrun : ClassM.assemble b items env c = .ok b' c') : Counting env k b' := by
  obtain ⟨its, hits, rfl⟩ := assemble_eq_ok hrun
  have hstraight := straight_of_interned hits hitems
  refine h.straight hstraight ?_
  exact code_puts_inert (fun x hx =>
    Item.isInert_of_isStraight (List.all_eq_true.mp hstraight x hx)) _

end Code

-- The code of a method, if it has any.
def MethodCounting (env : ClassEnv) (k : Constants) (w : MethodInfo) : Prop :=
  ∀ b ∈ w.code, AllCallsCounted env k b.code

-- A step from a class on that puts methods behind those that are there, in all of which calls count
-- their arguments.
def CountsFrom {α : Type} (env : ClassEnv) (c : OpenClass) (m : ClassM α) : Prop :=
  c.WellFormed env → ∀ a c', m env c = .ok a c' → ∃ ms, c.Declares env ms c' ∧
    ∀ w ∈ ms, MethodCounting env c'.draft.pool.get? w

section Reads

theorem ClassM.advancing_get : ClassM.Advancing (get : ClassM OpenClass) := by
  intro env c a c' h
  cases h
  exact .refl _

variable (m : MethodDef)

theorem advancing_desc (self : Option String) (n : Nat) (result : Result) :
    ClassM.Advancing (ClassM.desc m self n result) :=
  ClassM.advancing_bind ClassM.advancing_symbols fun _ => ClassM.advancing_ofExcept _

theorem advancing_frame (mode : SelfMode) : ClassM.Advancing (ClassM.frame m mode) :=
  ClassM.advancing_bind ClassM.advancing_symbols fun _ =>
    ClassM.advancing_bind ClassM.advancing_className fun _ => ClassM.advancing_ofExcept _

theorem advancing_resultStack : ClassM.Advancing (ClassM.resultStack m) :=
  ClassM.advancing_bind (ClassM.advancing_typeRef _) fun _ => ClassM.advancing_pure _

end Reads

section Steps

variable {α β : Type} {env : ClassEnv} {c : OpenClass}

theorem CountsFrom.of_advancing {m : ClassM α} (hm : ClassM.Advancing m) :
    CountsFrom env c m :=
  fun hc a c' h => ⟨[], (hm env c a c' h).declares hc, nofun⟩

theorem CountsFrom.bind {m : ClassM α} {g : α → ClassM β} (hm : CountsFrom env c m)
    (hg : ∀ a c₁, c.WellFormed env → m env c = .ok a c₁ → CountsFrom env c₁ (g a)) :
    CountsFrom env c (m >>= g) := by
  intro hc b c' h
  obtain ⟨a, c₁, ha, hb⟩ := ClassM.bind_eq_ok.mp h
  obtain ⟨ms, hms, hcounts⟩ := hm hc a c₁ ha
  obtain ⟨ms', hms', hcounts'⟩ := hg a c₁ hc ha hms.formed b c' hb
  refine ⟨_, hms.trans hms', List.forall_mem_append.mpr ⟨?_, hcounts'⟩⟩
  intro w hw out hout
  exact (hcounts w hw out hout).extends (hms'.draft.grows.extends hms'.formed.pool)

-- A step that declares nothing, before others.
theorem CountsFrom.bind_advancing {m : ClassM α} {g : α → ClassM β} (hm : ClassM.Advancing m)
    (hg : ∀ a c₁, c.WellFormed env → m env c = .ok a c₁ → CountsFrom env c₁ (g a)) :
    CountsFrom env c (m >>= g) :=
  (CountsFrom.of_advancing hm).bind hg

theorem CountsFrom.addMethod {access : UInt16} {name desc : String} {code : Option CodeBuffer}
    (hcode : ∀ b ∈ code, Counting env c.draft.pool.get? b) :
    CountsFrom env c (ClassM.addMethod access name desc code) := by
  intro hc u c' h
  obtain ⟨w, hw, -, -, -, hwcode⟩ := ClassM.addMethod_eq_ok hc h
  obtain ⟨d, hd, -⟩ := ClassM.onDraft_eq_ok h
  obtain ⟨hsize, -⟩ := ClassFile.Draft.addMethod_run_eq_ok.mp hd
  refine ⟨[w], hw, ?_⟩
  intro w' hw' b hb
  obtain rfl := List.mem_singleton.mp hw'
  rw [hwcode] at hb
  exact (hcode b hb (hsize b hb)).extends (hw.draft.grows.extends hw.formed.pool)

theorem CountsFrom.forM {xs : List α} {g : α → ClassM PUnit}
    (hg : ∀ x c₁, CountsFrom env c₁ (g x)) : CountsFrom env c (xs.forM g) := by
  induction xs generalizing c with
  | nil => exact .of_advancing (ClassM.advancing_pure _)
  | cons x rest ih => exact (hg x c).bind fun _ _ _ _ => ih

end Steps

section Methods

variable {env : ClassEnv} {c c' : OpenClass} {m : MethodDef} {f : Frame}

-- The code of the instructions of a method.
theorem counting_of_plainBody {out : CodeBuffer} (hc : c.WellFormed env)
    (h : lowerPlainBody m f env c = .ok out c') : Counting env c'.draft.pool.get? out := by
  obtain ⟨mc, c₁, hlower, hpure⟩ := ClassM.bind_eq_ok.mp h
  obtain ⟨rfl, rfl⟩ := ClassM.pure_eq_ok.mp hpure
  obtain ⟨p, c₂, hp, hcode, hreloc, hjumps⟩ := lowerCode_eq_ok hlower
  obtain ⟨body, hbody, hexact⟩ := exact_of_placed hp hcode hreloc hjumps
  obtain ⟨hc₂, -⟩ := placeCode_advances hp hc
  obtain ⟨hc', hgrows⟩ := lowerCode_advances hlower hp hc₂
  have hlowered : Lowered env f m.code _ c c₂ body mc := ⟨hbody, hexact⟩
  exact (hlowered.counting hc (counting_sized _ _ _ _)).extends (hgrows.extends hc'.pool)

-- The code of defaults behind other code.
theorem counting_of_defaults {out all : CodeBuffer} {index : Nat} {params : List VarDef}
    (hc : c.WellFormed env) (hout : Counting env c.draft.pool.get? out)
    (h : lowerDefaults m f out index params env c = .ok all c') :
    Counting env c'.draft.pool.get? all := by
  induction params generalizing out index c with
  | nil =>
    obtain ⟨rfl, rfl⟩ := ClassM.pure_eq_ok.mp h
    exact hout
  | cons p rest ih =>
    unfold lowerDefaults at h
    cases hdefault : p.default? with
    | none =>
      rw [hdefault] at h
      obtain ⟨cls, c₁, -, hthrow⟩ := ClassM.bind_eq_ok.mp h
      cases hthrow
    | some code =>
      rw [hdefault] at h
      obtain ⟨fragment, c₁, hfragment, hrest⟩ := ClassM.bind_eq_ok.mp h
      obtain ⟨body, hlowered⟩ := lowered_of_lowerFragment hfragment
      obtain ⟨hc₁, hgrows⟩ := advancing_lowerFragment _ _ _ _ _ _ _ hfragment hc
      exact ih hc₁ (hlowered.counting hc (hout.extends (hgrows.extends hc₁.pool))) hrest

theorem straight_loadLocals (ls : List Local) : Item.Straight (loadLocals ls) := by
  simp [Item.Straight, loadLocals, Item.isStraight]

theorem fixedLength?_returnOp (t : StackType) : fixedLength? (returnOp t) = some 1 := by
  cases t <;> rfl

-- A call and a return behind code.
theorem Counting.callReturn {k : Constants} {out : CodeBuffer} {o : UInt8} {ref : UInt16}
    {t : StackType} (h : Counting env k out) (ho : fixedLength? o = some 3) :
    Counting env k ((out.op2 o ref).returnOp t) := by
  have hstraight : Item.Straight [.const o ref, .op (returnOp t)] := by
    simp [Item.Straight, Item.isStraight, ho, fixedLength?_returnOp]
  refine h.straight hstraight ?_
  simp [itemBytes, Item.raw, CodeBuffer.returnOp]

theorem countsFrom_lowerWrapper (t : Target) (access : UInt16) (ref : UInt16) (n : Nat) :
    CountsFrom env c (lowerWrapper m t access f ref n) := by
  unfold lowerWrapper
  refine .bind_advancing (advancing_desc _ _ _ _) fun desc c₁ _ _ => ?_
  refine .bind_advancing (advancing_assemble _ _) fun passed c₂ hc₁ hpassed => ?_
  refine .bind_advancing (advancing_lowerDefaults _ _ _ _ _) fun all c₃ hc₂ hall => ?_
  refine .addMethod ?_
  rintro b ⟨⟩
  have hhead : Counting env c₂.draft.pool.get? passed := by
    refine (counting_sized _ _ _ _).assemble ?_ hpassed
    refine Item.straight_append.mpr ⟨?_, straight_loadLocals _⟩
    split <;> rfl
  refine (counting_of_defaults hc₂ hhead hall).callReturn ?_
  split <;> rfl

theorem countsFrom_lowerWrappers (t : Target) (access : UInt16) (mode : SelfMode) :
    CountsFrom env c (lowerWrappers m t access mode) := by
  unfold lowerWrappers
  split
  · exact .of_advancing (ClassM.advancing_pure _)
  · refine .bind_advancing (advancing_frame _ _) fun f c₁ _ _ => ?_
    refine .bind_advancing ClassM.advancing_className fun cls c₂ _ _ => ?_
    refine .bind_advancing (ClassM.advancing_intern _) fun ref c₃ _ _ => ?_
    exact .forM fun n c₄ => countsFrom_lowerWrapper t access ref n

theorem countsFrom_lowerStandard : CountsFrom env c (lowerStandard m) := by
  unfold lowerStandard
  refine .bind_advancing (advancing_desc _ _ _ _) fun desc c₁ _ _ => ?_
  split
  · refine (CountsFrom.addMethod (by simp)).bind fun _ c₂ _ _ => ?_
    refine .bind_advancing (advancing_resultStack _) fun stack c₃ _ _ => ?_
    exact countsFrom_lowerWrappers _ _ _
  · refine .bind_advancing (advancing_frame _ _) fun f c₂ _ _ => ?_
    refine .bind_advancing (advancing_lowerPlainBody _ _) fun out c₃ hc₂ hbody => ?_
    refine (CountsFrom.addMethod ?_).bind fun _ c₄ _ _ => ?_
    · rintro b ⟨⟩
      exact counting_of_plainBody hc₂ hbody
    · refine .bind_advancing (advancing_resultStack _) fun stack c₅ _ _ => ?_
      exact countsFrom_lowerWrappers _ _ _

theorem countsFrom_lowerCtorBody (access : UInt16) :
    CountsFrom env c (lowerCtorBody m access) := by
  unfold lowerCtorBody
  refine .bind_advancing ClassM.advancing_read fun e c₁ _ _ => ?_
  refine .bind_advancing (advancing_desc _ _ _ _) fun desc c₂ _ _ => ?_
  refine .bind_advancing (advancing_frame _ _) fun f c₃ _ _ => ?_
  refine .bind_advancing (advancing_lowerPlainBody _ _) fun out c₄ hc₃ hbody => ?_
  refine (CountsFrom.addMethod ?_).bind fun _ c₅ _ _ => ?_
  · rintro b ⟨⟩
    exact counting_of_plainBody hc₃ hbody
  · exact (countsFrom_lowerWrappers _ _ _).bind fun _ _ _ _ =>
      .of_advancing (ClassM.advancing_pure _)

-- Items that stand for a whole method.
theorem CountsFrom.items {maxStack maxLocals : Nat} {items : List (Item Ref)} {access : UInt16}
    {name desc : String} {more : ClassM Unit}
    (hitems : Item.Straight items) (hmore : ∀ c₁, CountsFrom env c₁ more) :
    CountsFrom env c (ClassM.assemble (CodeBuffer.sized maxStack maxLocals) items >>= fun out =>
      ClassM.addMethod access name desc (some out) >>= fun _ => more) := by
  refine .bind_advancing (advancing_assemble _ _) fun out c₁ _ hout => ?_
  refine (CountsFrom.addMethod ?_).bind fun _ c₂ _ _ => hmore c₂
  rintro b ⟨⟩
  exact (counting_sized _ _ _ _).assemble hitems hout

theorem straight_factoryItems (self : String) (body : Target) (params : List Local) :
    Item.Straight (factoryItems self body params) :=
  Item.straight_append.mpr ⟨Item.straight_append.mpr ⟨rfl, straight_loadLocals _⟩, rfl⟩

theorem countsFrom_lowerCtor : CountsFrom env c (lowerCtor m) := by
  unfold lowerCtor
  refine .bind_advancing ClassM.advancing_read fun e c₁ _ _ => ?_
  refine (countsFrom_lowerCtorBody _).bind fun body c₂ _ _ => ?_
  refine .bind_advancing (advancing_desc _ _ _ _) fun desc c₃ _ _ => ?_
  refine .bind_advancing (advancing_frame _ _) fun f c₄ _ _ => ?_
  exact .items (straight_factoryItems _ _ _) fun c₅ => countsFrom_lowerWrappers _ _ _

theorem straight_nativeItems (self desc : String) (params : List Local) (result : StackType) :
    Item.Straight (nativeItems self m desc params result) := by
  have hreturn : Item.Straight [(.op (returnOp result) : Item Ref)] := by
    simp [Item.Straight, Item.isStraight, fixedLength?_returnOp]
  unfold nativeItems
  refine Item.straight_append.mpr ⟨?_, hreturn⟩
  split
  · exact Item.straight_append.mpr ⟨straight_loadLocals _, rfl⟩
  · exact Item.straight_append.mpr ⟨Item.straight_append.mpr ⟨rfl, straight_loadLocals _⟩, rfl⟩

theorem countsFrom_lowerNative : CountsFrom env c (lowerNative m) := by
  unfold lowerNative
  refine .bind_advancing ClassM.advancing_read fun e c₁ _ _ => ?_
  refine .bind_advancing (advancing_desc _ _ _ _) fun desc c₂ _ _ => ?_
  refine .bind_advancing (advancing_resultStack _) fun stack c₃ _ _ => ?_
  refine .bind_advancing (advancing_frame _ _) fun f c₄ _ _ => ?_
  split
  · refine .bind_advancing (ClassM.advancing_pure _) fun peerDesc c₅ _ _ => ?_
    exact .items (straight_nativeItems _ _ _ _) fun c₆ => countsFrom_lowerWrappers _ _ _
  · refine .bind_advancing (advancing_desc _ _ _ _) fun peerDesc c₅ _ _ => ?_
    exact .items (straight_nativeItems _ _ _ _) fun c₆ => countsFrom_lowerWrappers _ _ _

theorem countsFrom_lowerMethod : CountsFrom env c (lowerMethod m) := by
  unfold lowerMethod
  split
  · exact countsFrom_lowerCtor
  · split
    · exact countsFrom_lowerNative
    · exact countsFrom_lowerStandard

theorem countsFrom_lowerMixinBody : CountsFrom env c (lowerMixinBody m) := by
  unfold lowerMixinBody
  split
  · exact .of_advancing (ClassM.advancing_pure _)
  · refine .bind_advancing ClassM.advancing_read fun e c₁ _ _ => ?_
    refine .bind_advancing (advancing_desc _ _ _ _) fun desc c₂ _ _ => ?_
    refine .bind_advancing (advancing_frame _ _) fun f c₃ _ _ => ?_
    refine .bind_advancing (advancing_lowerPlainBody _ _) fun out c₄ hc₃ hbody => ?_
    refine (CountsFrom.addMethod ?_).bind fun _ c₅ _ _ => ?_
    · intro b hb
      cases hb
      exact counting_of_plainBody hc₃ hbody
    · refine .bind_advancing (advancing_resultStack _) fun stack c₆ _ _ => ?_
      exact countsFrom_lowerWrappers _ _ _

theorem straight_routerItems (mixin name bodyDesc : String) (kinds : List StackType)
    (result : StackType) : Item.Straight (routerItems mixin name bodyDesc kinds result) := by
  refine Item.straight_append.mpr ⟨Item.straight_cons.mpr ⟨rfl, straight_loadLocals _⟩, ?_⟩
  simp [Item.Straight, Item.isStraight, Item.callStatic, fixedLength?_returnOp]
  rfl

theorem countsFrom_lowerRouterFor (pod : Pod) (mixin : String) (access : UInt16)
    (result : StackType) (n : Nat) :
    CountsFrom env c (lowerRouterFor pod mixin m access result n) := by
  unfold lowerRouterFor
  refine .bind_advancing (ClassM.advancing_ofExcept _) fun desc c₁ _ _ => ?_
  refine .bind_advancing ClassM.advancing_get fun c₂ c₃ _ _ => ?_
  split
  · exact .of_advancing (ClassM.advancing_pure _)
  · refine .bind_advancing (ClassM.advancing_ofExcept _) fun bodyDesc c₄ _ _ => ?_
    refine .bind_advancing (ClassM.advancing_ofExcept _) fun kinds c₅ _ _ => ?_
    refine .bind_advancing (advancing_assemble _ _) fun out c₆ _ hout => ?_
    refine .addMethod ?_
    intro b hb
    cases hb
    exact (counting_sized _ _ _ _).assemble (straight_routerItems _ _ _ _ _) hout

theorem countsFrom_lowerRouter (pod : Pod) (mixin : Pod.TypeDef) :
    CountsFrom env c (lowerRouter pod mixin m) := by
  unfold lowerRouter
  refine .bind_advancing (ClassM.advancing_ofExcept _) fun self c₁ _ _ => ?_
  refine .bind_advancing (ClassM.advancing_ofExcept _) fun ret c₂ _ _ => ?_
  exact .forM fun n c₃ => countsFrom_lowerRouterFor _ _ _ _ _

end Methods

end Lowering

end PodCompiler
