import PodCompiler.Proofs.Lowering.AskedTypes
import PodCompiler.Proofs.Lowering.Room
import PodCompiler.Proofs.Lowering.UncheckedFinally

namespace PodCompiler.Lowering

open ClassFile (CodeBuffer Draft Member Pool PoolM)
open ClassM (IsShort)

variable {env : ClassEnv} {c c₁ c' : OpenClass} {m n : Nat}

-- The field of a type can be named.
theorem ofField_literalField {cls : String} (hcls : cls ≠ "") (hcolon : ':' ∉ cls.toList) (n : Nat) :
    Member.ofField s!"{cls}.{literalField n}:{typeDesc}" =
      .ok ⟨cls, literalField n, typeDesc⟩ := by
  have happend : literalField n = "type$" ++ n.repr := rfl
  have hchars : (literalField n).toList = "type$".toList ++ Nat.toDigits 10 n := by
    rw [happend, String.toList_append, Nat.toList_repr]
  have hnot : ∀ ch : Char, ch.isDigit = false → ch ∉ "type$".toList →
      ch ∉ (literalField n).toList := by
    intro ch hdigit hprefix hmem
    rw [hchars, List.mem_append] at hmem
    obtain hmem | hmem := hmem
    · exact hprefix hmem
    · have hdigits := Nat.isDigit_of_mem_toDigits (by decide) (by decide) hmem
      rw [hdigit] at hdigits
      cases hdigits
  refine Member.ofField_append hcls ?_ (by decide) ?_ (hnot '.' rfl (by decide))
  · intro hempty
    have hempty : literalField n = "" := hempty
    rw [hempty] at hchars
    simp at hchars
  · rw [List.mem_append, not_or]
    exact ⟨hcolon, hnot ':' rfl (by decide)⟩

-- Steps that took at most some indices of the pool of a class, and made it keep no more types.
structure OpenClass.Took (n : Nat) (c c' : OpenClass) : Prop where
  name : c'.draft.name = c.draft.name
  source : c'.draft.sourceFile = c.draft.sourceFile
  room : c'.draft.pool.next ≤ c.draft.pool.next + n
  kept : c'.literals.size ≤ c.literals.size + n

theorem OpenClass.Took.trans (h : OpenClass.Took m c c₁) (h' : OpenClass.Took n c₁ c') :
    OpenClass.Took (m + n) c c' where
  name := h'.name.trans h.name
  source := h'.source.trans h.source
  room := by
    have hfirst := h.room
    have hlast := h'.room
    omega
  kept := by
    have hfirst := h.kept
    have hlast := h'.kept
    omega

theorem OpenClass.took_self (c : OpenClass) (n : Nat) : OpenClass.Took n c c :=
  ⟨rfl, rfl, Nat.le_add_right _ _, Nat.le_add_right _ _⟩

theorem exists_onPool_took (env : ClassEnv) {α : Type} {x : PoolM α} (hx : Pool.Fits n x)
    (hn : n ≤ 12) (hdraft : c₁.draft = c.draft) (hkept : c₁.literals.size ≤ c.literals.size + 12)
    (hroom : c.draft.pool.next + 12 ≤ Pool.limit) :
    ∃ a c', ClassM.onPool x env c₁ = .ok a c' ∧ OpenClass.Took 12 c c' := by
  obtain ⟨a, p, hp, hnext⟩ := hx c.draft.pool (by omega)
  have hp₁ : x c₁.draft.pool = .ok a p := by rw [hdraft, hp]
  refine ⟨a, _, ClassM.onPool_eq_ok.mpr ⟨p, hp₁, rfl⟩, ?_, ?_, ?_, hkept⟩
  · exact congrArg (·.name) hdraft
  · exact congrArg (·.sourceFile) hdraft
  · dsimp only
    omega

-- A constant of which a class may have to keep a type.
def Ref.IsNamed (r : Ref) : Prop :=
  r.IsCut ∨ ∃ sig, r = .typeLiteral sig

-- It finds a place in a pool with room.
theorem exists_intern {r : Ref} (hr : r.IsNamed) (hcls : c.draft.name ≠ "")
    (hcolon : ':' ∉ c.draft.name.toList) (hroom : c.draft.pool.next + 12 ≤ Pool.limit) :
    ∃ i c', r.intern env c = .ok i c' ∧ OpenClass.Took 12 c c' := by
  have hself : c.literals.size ≤ c.literals.size + 12 := Nat.le_add_right _ _
  obtain hcut | ⟨sig, rfl⟩ := hr
  · cases r with
    | class_ cls => exact exists_onPool_took env (Pool.fits_class cls) (by decide) rfl hself hroom
    | string text =>
      exact exists_onPool_took env (Pool.fits_bind (n := 2) (k := 2) (Pool.fits_add _) fun _ =>
        Pool.fits_add _) (by decide) rfl hself hroom
    | field sig | method sig | interfaceMethod sig =>
      exact exists_onPool_took env (Pool.fits_member _ hcut) (Nat.le_refl _) rfl hself hroom
    | typeLiteral sig => exact hcut.elim
  · obtain ⟨k, c₁, hk, hdraft, hkept⟩ : ∃ k c₁, literalIndex sig env c = .ok k c₁ ∧
        c₁.draft = c.draft ∧ c₁.literals.size ≤ c.literals.size + 12 := by
      rw [ClassM.literalIndex_eq]
      split
      · exact ⟨_, _, rfl, rfl, hself⟩
      · refine ⟨_, _, rfl, rfl, ?_⟩
        rw [Array.size_push]
        omega
    have hfield : ∃ member, Member.ofField s!"{c₁.draft.name}.{literalField k}:{typeDesc}" =
        .ok member := by
      rw [hdraft]
      exact ⟨_, ofField_literalField hcls hcolon k⟩
    obtain ⟨i, c', hi, htook⟩ := exists_onPool_took env
      (Pool.fits_member .fieldref hfield) (Nat.le_refl _) hdraft hkept hroom
    exact ⟨i, c', ClassM.bind_eq_ok.mpr ⟨_, c₁, ClassM.bind_eq_ok.mpr ⟨k, c₁, hk, rfl⟩, hi⟩, htook⟩

-- One instruction at most, or a constant as above.
def Item.IsNamed : Item Ref → Prop
  | .const _ r => r.IsNamed
  | .op _ | .hop _ _ => True
  | _ => False

theorem exists_item (env : ClassEnv) {x : Item Ref} (hx : x.IsNamed) (hcls : c.draft.name ≠ "")
    (hcolon : ':' ∉ c.draft.name.toList) (hroom : c.draft.pool.next + 12 ≤ Pool.limit) :
    ∃ i c', x.mapM Ref.intern env c = .ok i c' ∧ OpenClass.Took 12 c c' ∧ i.isInert = true ∧
      IsShort i := by
  cases x with
  | const o r =>
    obtain ⟨i, c', hi, htook⟩ := exists_intern hx hcls hcolon hroom
    exact ⟨.const o i, c', ClassM.map_eq_ok.mpr ⟨i, hi, rfl⟩, htook, rfl,
      fun pos => by simp [Item.raw]⟩
  | op o =>
    exact ⟨.op o, c, rfl, c.took_self 12, rfl, fun pos => by simp [Item.raw]⟩
  | hop o distance =>
    exact ⟨.hop o distance, c, rfl, c.took_self 12, rfl, fun pos => by simp [Item.raw]⟩
  | _ => exact hx.elim

theorem exists_interned (env : ClassEnv) {xs : List (Item Ref)} (hxs : ∀ x ∈ xs, x.IsNamed)
    (hcls : c.draft.name ≠ "") (hcolon : ':' ∉ c.draft.name.toList)
    (hroom : c.draft.pool.next + 12 * xs.length ≤ Pool.limit) :
    ∃ its c', Item.Interned env c xs its c' ∧ OpenClass.Took (12 * xs.length) c c' ∧
      its.length = xs.length ∧ Item.Inert its ∧ ∀ i ∈ its, IsShort i := by
  induction xs generalizing c with
  | nil => exact ⟨[], c, .nil, c.took_self _, rfl, Item.inert_nil, by simp⟩
  | cons x xs ih =>
    obtain ⟨hx, hrest⟩ := List.forall_mem_cons.mp hxs
    rw [List.length_cons, Nat.mul_succ] at hroom
    obtain ⟨i, c₁, hi, htook, hinert, hshort⟩ := exists_item env hx hcls hcolon (by omega)
    have hnext := htook.room
    obtain ⟨its, c', hits, htook', hlength, hinerts, hshorts⟩ := ih hrest (by rwa [htook.name])
      (by rwa [htook.name]) (by omega)
    refine ⟨i :: its, c', .cons hi hits, ?_, by rw [List.length_cons, List.length_cons, hlength],
      Item.inert_cons.mpr ⟨hinert, hinerts⟩, List.forall_mem_cons.mpr ⟨hshort, hshorts⟩⟩
    rw [List.length_cons, Nat.mul_succ, Nat.add_comm]
    exact htook.trans htook'

-- The items that push a type are so.
theorem isNamed_pushType {t : TypeRef} (hkept : isKeptType t = true) :
    ∀ x ∈ Conversion.pushType t, x.IsNamed := by
  have hfind : ∃ m, Member.ofMethod "fan/sys/Type.find(Ljava/lang/String;Z)Lfan/sys/Type;" =
      .ok m := ⟨⟨"fan/sys/Type", "find", "(Ljava/lang/String;Z)Lfan/sys/Type;"⟩, by cbv⟩
  rw [pushType_of_isKept hkept]
  simp only [lookupItems, List.cons_append, List.nil_append, List.forall_mem_cons]
  exact ⟨.inr ⟨_, rfl⟩, trivial, trivial, trivial, .inl trivial, trivial, .inl hfind, trivial,
    .inr ⟨_, rfl⟩, by simp⟩

-- Code without jumps is put down as it is.
theorem jumps_puts_of_inert {its : List (Item UInt16)}
    (h : ∀ x ∈ its, x.isInert = true ∨ ∃ q, x = .mark q) (l : Layout) :
    (l.puts its).jumps.toList = l.jumps.toList := by
  induction its generalizing l with
  | nil => rfl
  | cons x its ih =>
    obtain ⟨hx, hrest⟩ := List.forall_mem_cons.mp h
    have hnone : x.nodes l.scope l.out.pos = [] := by
      obtain hx | ⟨q, rfl⟩ := hx
      · cases x <;> first | rfl | cases hx
      · rfl
    rw [Layout.puts_cons, ih hrest, Layout.jumps_put, hnone, List.append_nil]

-- So a body of short items is placed if the class of it has them.
theorem exists_placeCode {f : Frame} {code : Bytes} {its : List (Item UInt16)} (out : CodeBuffer)
    (hbody : emitBody f code {} env c = .ok ((), ⟨its.toArray, {}⟩) c')
    (h : ∀ x ∈ its, (x.isInert = true ∨ ∃ q, x = .mark q) ∧ IsShort x) :
    ∃ placed : PlacedCode, placeCode f code out env c = .ok placed c' ∧ placed.finallies = {} ∧
      placed.out.code.size ≤ out.code.size + 5 * its.length := by
  have hlayout : (BodyState.mk its.toArray {}).layout code out =
      (Layout.start out code.size).puts its := BodyState.layout_eq _ code out
  have hjumps : ((BodyState.mk its.toArray {}).layout code out).jumps.toList = [] := by
    rw [hlayout, jumps_puts_of_inert fun x hx => (h x hx).1]
    rfl
  have hplace : placeCode f code out env c = _ := placeCode_eq hbody
  rw [BodyState.fault?, hjumps] at hplace
  refine ⟨_, hplace, rfl, ?_⟩
  rw [BodyState.filled, hjumps]
  change ((BodyState.mk its.toArray {}).layout code out).out.code.size ≤ _
  rw [hlayout]
  exact ClassM.pos_puts_le fun x hx => (h x hx).2

-- A class has room for the fields of its types.
theorem exists_finish_kept (hroom : c.draft.pool.next + 4 * c.literals.size + 4 ≤ Pool.limit)
    (hsource : c.draft.sourceFile = none) : ∃ o, c.finish = .ok o ∧ o.name = c.draft.name := by
  have hloop : ∀ (ns : List Nat) (d : Draft), d.pool.next + 4 * ns.length + 4 ≤ Pool.limit →
      d.sourceFile = none → ∃ d', ns.forM (fun index => Draft.addField
        (ClassFile.Access.private_ ||| ClassFile.Access.static_) (literalField index) typeDesc) d =
          .ok () d' ∧ d'.pool.next + 4 ≤ Pool.limit ∧ d'.sourceFile = none ∧ d'.name = d.name := by
    intro ns
    induction ns with
    | nil => exact fun d hd hnone => ⟨d, rfl, hd, hnone, rfl⟩
    | cons n ns ih =>
      intro d hd hnone
      rw [List.length_cons, Nat.mul_succ] at hd
      obtain ⟨d₁, hfield, hnext, hsame, hname⟩ := Draft.exists_addField
        (ClassFile.Access.private_ ||| ClassFile.Access.static_) (literalField n) typeDesc
        (d := d) (by omega)
      obtain ⟨d', hrest, hnext', hnone', hname'⟩ := ih d₁ (by omega) (hsame.trans hnone)
      exact ⟨d', Draft.bind_eq_ok.mpr ⟨(), d₁, hfield, hrest⟩, hnext', hnone', hname'.trans hname⟩
  obtain ⟨d, hfields, hnext, hnone, hname⟩ := hloop (List.range c.literals.size) c.draft
    (by rwa [List.length_range]) hsource
  obtain ⟨o, ho⟩ := OpenClass.exists_output hnext hnone
  obtain ⟨-, -, -, hsame, -⟩ := OpenClass.output_eq_ok ho
  refine ⟨o, except_bind_eq_ok.mpr ⟨((), d), ?_, ho⟩, hsame.trans hname⟩
  have hrun : c.addLiteralFields.run c.draft = .ok () d := hfields
  unfold OpenClass.run
  rw [hrun]

end PodCompiler.Lowering
