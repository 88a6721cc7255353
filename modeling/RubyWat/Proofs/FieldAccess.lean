import RubyWat.Proofs.ClosedModule
import RubyWat.Proofs.ObjectLayout

/-
  Accesses of fields in a finished program.

  Main statements: every read or write of a field has the type that its field has in the end,
  unless the field is an attribute and the access is narrow (`field_access_types`); and it stays
  inside of objects that are at least as large as those of the class whose method it is in
  (`accesses_inside_objects`).
-/

-- Places Of Fields

namespace RubyWat

open Code Wasm Compilation

/- A value takes the room of its machine type. -/
theorem ValueType.size_eq_held {ty : ValueType} (hSome : ty ≠ .none) : ty.size = ty.held.size := by
  cases ty <;> first | rfl | exact absurd rfl hSome

/- No machine type is smaller than the narrow one. -/
theorem Wasm.MachineType.size_i32_le (ty : MachineType) : MachineType.i32.size ≤ ty.size := by
  cases ty <;> decide

/- An access of a field that has a type ends where its object does or before. -/
theorem Program.Fits.inside {p : Program} {c : ClassId} {a : Access} (hFits : p.Fits c a) :
    ∃ v, (p.cls c).ivars[a.slot]? = some v
      ∧ (v.ty ≠ .none → (p.cls c).fieldOffset a.slot + a.held.size ≤ (p.cls c).size) := by
  rcases hFits with ⟨_, v, hAt, hHeld⟩
  refine ⟨v, hAt, fun hTyped => ?_⟩
  have hRoom : a.held.size ≤ v.ty.size := by
    rw [ValueType.size_eq_held hTyped]
    rcases hHeld with ⟨_, hSame⟩ | ⟨hNarrow, _⟩
    · exact Nat.le_of_eq (by rw [hSame])
    · rw [hNarrow]
      exact MachineType.size_i32_le _
  have hEnd := Class.fieldOffset_add_le hAt
  omega

-- Accesses Of Methods

theorem Code.Fragment.Accesses.within {f g : Fragment} {Q : Access → Prop} (hAll : f.Accesses Q)
    (hWithin : f.Within g) : g.Accesses Q := by
  induction hWithin with
  | self => exact hAll
  | child _ hChild ih => exact ih.child hChild

namespace Settled

variable {ctx : Context} {m : MethodId} {n body : NodeId} {a : Access}

/- What the code of a method accesses is left to the method. -/
theorem allows (hRooted : Rooted ctx) (hBody : (ctx.program.method m).body = some body)
    (hReach : ctx.tree.Reaches body n)
    (hAccess : (ctx.tree.instr n).access? (ctx.tree.ty n) = some a) : ctx.program.Allows m a := by
  rcases (hRooted.inOrder m).code body hBody with ⟨f, rfl, hDefined, hAllows, _⟩
  rcases hDefined.held.within_of_reaches hReach with ⟨g, hWithin, rfl⟩
  exact (hAllows.within hWithin).at_node (hWithin.held hDefined.held) hAccess

/- All accesses are in methods. -/
theorem exists_allows (hRooted : Rooted ctx) (hArranged : Arranged ctx.tree Tree.root)
    (hReach : ctx.tree.Reaches Tree.root n)
    (hAccess : (ctx.tree.instr n).access? (ctx.tree.ty n) = some a) :
    ∃ m, ctx.program.Allows m a := by
  cases hReach.located hArranged hRooted.root.isGroup with
  | group hAttached =>
    have hIs := hAttached.isGroup
    unfold Instr.access? at hAccess
    split at hAccess
    · simp_all [Instr.isGroup]
    · simp_all [Instr.isGroup]
    · cases hAccess
  | @code m _ _ hDefined hDefines hWithin =>
    have hBody := ((hRooted.inOrder m).body _).mpr hDefines
    exact ⟨m, hRooted.allows hBody (hWithin.reaches hDefined.held) hAccess⟩

end Settled

-- Finished Programs

variable {options : Options} {loader : Loader}
variable {main : Load SourceUnit} {ctx : Context}

/-
  An access has the type that its field has in the end.  Only an attribute may be accessed in
  another way, with the narrow type that attributes have before theirs is known.
-/
theorem field_access_types {n : NodeId} {a : Access}
    (hRun : (run options loader main).result = .ok ctx)
    (hReach : ctx.tree.Reaches Tree.root n)
    (hAccess : (ctx.tree.instr n).access? (ctx.tree.ty n) = some a) :
    ∃ v, (ctx.program.cls a.cls).ivars[a.slot]? = some v ∧ (a.held = v.ty.held ∨ a.held = .i32
          ∧ v.name ∈ (ctx.program.cls a.cls).attrNames) := by
  have hRooted := (run_evolves hRun).rooted
  rcases hRooted.exists_allows (run_arranged hRun) hReach hAccess with ⟨m, hAllows⟩
  rcases hAllows.fits with ⟨hClass, v, hAt, hHeld⟩
  rw [hClass]
  exact ⟨v, hAt, hHeld.imp_left And.right⟩

/-
  A class with an attribute that a method reads before the type of the attribute is given, and a
  class below it without a field of its own.
-/
def lateField : SourceUnit :=
  let node tag items : Dump.Node := ⟨tag, items, .generated⟩
  let symbol x := node .sym [.symbol x]
  let name x := node .const [.nil, .symbol x]
  let directive name arg := node .send [.nil, .symbol name, .node arg]
  let define name names body :=
    let params := names.map fun x => .node (node .param [.symbol x])
    node .methodDef
      [.symbol name,
        .node (node .params params),
        .node body]
  let wide := node .pair [.node (symbol "x"), .node (symbol "I64")]
  let upper := node .begin
      [.node (directive "attr_accessor" (symbol "x")),
        .node (define "peek" [] (node .getIvar [.symbol "@x"])),
        .node (directive "attr_type" (node .hash [.node wide]))]
  let allocator := define "allocate" ["n"] (node .getLocal [.symbol "n"])
  ⟨"main", none, node .begin
      [.node (node .classDef [.node (name "A"), .nil, .node upper]),
        .node (node .classDef [.node (name "B"), .node (name "A"), .nil]),
        .node allocator]⟩

/- What the two readers of its compilation look at. -/
theorem lateField_known : (run {} {} (pure lateField)).satisfies fun ctx =>
      decide ((⟨1⟩ ∈ ctx.tree.children Tree.root
          ∧ ⟨2⟩ ∈ ctx.tree.children ⟨1⟩ ∧ ⟨3⟩ ∈ ctx.tree.children ⟨2⟩
          ∧ ⟨8⟩ ∈ ctx.tree.children ⟨1⟩ ∧ ⟨9⟩ ∈ ctx.tree.children ⟨8⟩)
        ∧ ((ctx.tree.instr ⟨3⟩).access? (ctx.tree.ty ⟨3⟩) = some ⟨⟨1⟩, 0, .i32⟩
          ∧ (ctx.tree.instr ⟨9⟩).access? (ctx.tree.ty ⟨9⟩) = some ⟨⟨1⟩, 0, .i64⟩)
        ∧ (ctx.program.cls ⟨1⟩).ivars[0]?.map (·.ty) = some .i64
        ∧ (ctx.program.cls ⟨1⟩).size = 8
        ∧ (ctx.program.cls ⟨2⟩).size = 0
        ∧ (ctx.program.method ⟨1⟩).body = some ⟨8⟩
        ∧ (ctx.program.method ⟨1⟩).owner = ⟨1⟩
        ∧ ctx.program.instanceMethod? ⟨2⟩ "x=" = some ⟨1⟩
        ∧ (ctx.program.ownMethod? ⟨2⟩ "new" .onClass).map
            (fun m => (ctx.program.method m).flags.synthesized)
          = some true) := by
  decide +kernel

/- Its writer writes all of the attribute. -/
theorem lateField_access_types : ∃ ctx, (run {} {} (pure lateField)).result = .ok ctx
      ∧ (ctx.tree.instr ⟨9⟩).access? (ctx.tree.ty ⟨9⟩) = some ⟨⟨1⟩, 0, .i64⟩
      ∧ ∃ v, (ctx.program.cls ⟨1⟩).ivars[0]? = some v
        ∧ (MachineType.i64 = v.ty.held ∨ MachineType.i64 = .i32
            ∧ v.name ∈ (ctx.program.cls ⟨1⟩).attrNames) := by
  rcases exists_of_satisfies lateField_known with
    ⟨ctx, hRun, ⟨hClass, _, _, hMethod, hCode⟩, ⟨_, hAccess⟩, _⟩
  exact ⟨ctx, hRun, hAccess, field_access_types hRun
    (.child (.child (.child .self hClass) hMethod) hCode) hAccess⟩

/- The other method reads half of it. -/
theorem lateField_half_read : ∃ ctx, (run {} {} (pure lateField)).result = .ok ctx
      ∧ ctx.tree.Reaches Tree.root ⟨3⟩
      ∧ (ctx.tree.instr ⟨3⟩).access? (ctx.tree.ty ⟨3⟩) = some ⟨⟨1⟩, 0, .i32⟩
      ∧ (ctx.program.cls ⟨1⟩).ivars[0]?.map (·.ty) = some .i64 := by
  rcases exists_of_satisfies lateField_known with
    ⟨ctx, hRun, ⟨hClass, hMethod, hCode, _⟩, ⟨hAccess, _⟩, hField, _⟩
  exact ⟨ctx, hRun, .child (.child (.child .self hClass) hMethod) hCode, hAccess, hField⟩

/-
  An access in a method is of a field of the class that the method is of.  If the field has a
  type, the access stays inside of every object that is at least as large as the objects of that
  class.
-/
theorem accesses_inside_objects {m : MethodId} {n body : NodeId} {a : Access}
    (hRun : (run options loader main).result = .ok ctx)
    (hBody : (ctx.program.method m).body = some body) (hReach : ctx.tree.Reaches body n)
    (hAccess : (ctx.tree.instr n).access? (ctx.tree.ty n) = some a) :
    a.cls = (ctx.program.method m).owner
      ∧ ∃ v, (ctx.program.cls a.cls).ivars[a.slot]? = some v
        ∧ (v.ty ≠ .none → ∀ c : ClassId,
            (ctx.program.cls (ctx.program.method m).owner).size ≤ (ctx.program.cls c).size →
              (ctx.program.cls a.cls).fieldOffset a.slot + a.held.size
                ≤ (ctx.program.cls c).size) := by
  have hRooted := (run_evolves hRun).rooted
  have hFits := (hRooted.allows hBody hReach hAccess).fits
  rcases hFits.inside with ⟨v, hAt, hInside⟩
  rw [hFits.1]
  exact ⟨rfl, v, hAt, fun hTyped c hSize => Nat.le_trans (hInside hTyped) hSize⟩

/- What the writer of an attribute sets is in the object. -/
theorem lateField_inside : ∃ ctx, (run {} {} (pure lateField)).result = .ok ctx
      ∧ (ctx.program.cls ⟨1⟩).size = 8
      ∧ (⟨1⟩ : ClassId) = (ctx.program.method ⟨1⟩).owner
      ∧ (ctx.program.cls ⟨1⟩).fieldOffset 0 + MachineType.i64.size
        ≤ (ctx.program.cls ⟨1⟩).size := by
  rcases exists_of_satisfies lateField_known with
    ⟨ctx, hRun, ⟨_, _, _, _, hCode⟩, ⟨_, hAccess⟩, hField, hSize, _, hBody, hOwner, _⟩
  rcases accesses_inside_objects hRun hBody (.child .self hCode) hAccess with
    ⟨hClass, v, hAt, hInside⟩
  dsimp only at hClass hAt hInside
  rw [hAt] at hField
  have hTy : v.ty = .i64 := Option.some.inj hField
  exact ⟨ctx, hRun, hSize, hClass, hInside (by simp [hTy]) ⟨1⟩ (Nat.le_of_eq (by rw [hOwner]))⟩

/- Objects of the lower class have no room for the attribute that the methods it inherits access. -/
theorem lateField_outside : ∃ ctx, (run {} {} (pure lateField)).result = .ok ctx
      ∧ (ctx.program.ownMethod? ⟨2⟩ "new" .onClass).map
          (fun m => (ctx.program.method m).flags.synthesized)
        = some true
      ∧ ctx.program.instanceMethod? ⟨2⟩ "x=" = some ⟨1⟩
      ∧ (ctx.program.method ⟨1⟩).body = some ⟨8⟩
      ∧ ctx.tree.Reaches ⟨8⟩ ⟨9⟩
      ∧ (ctx.tree.instr ⟨9⟩).access? (ctx.tree.ty ⟨9⟩) = some ⟨⟨1⟩, 0, .i64⟩
      ∧ (ctx.program.cls ⟨2⟩).size < (ctx.program.cls ⟨1⟩).fieldOffset 0
          + MachineType.i64.size := by
  rcases exists_of_satisfies lateField_known with
    ⟨ctx, hRun, ⟨_, _, _, _, hCode⟩, ⟨_, hAccess⟩, _, _, hSize, hBody, _, hFound, hNew⟩
  refine ⟨ctx, hRun, hNew, hFound, hBody, .child .self hCode, hAccess, ?_⟩
  rw [hSize]
  exact Nat.lt_of_lt_of_le (by decide) (Nat.le_add_left _ _)

end RubyWat
