/-
Results of methods, connected field by field.

The results of a method are connected one field after the other, and a field whose node is missing,
too wide or too narrow, or whose wire has its driver, is refused when its turn comes.  What was
connected until then stays connected.  So a refused definition of results is not always without a
trace: the fields before the first misfit have got their drivers, and a second attempt is refused
because of them.

The fields of a method have wires of their own, so connecting one of them does not change whether
another can be connected, and how far a definition gets can be told from the circuit before it.
-/
import Mathlib.Data.List.TakeWhile
import Interlock.Proofs.Circuit.Transfer
import Interlock.Proofs.Inventory

namespace Interlock

/-! ### One wire -/

namespace Circuit

variable {c c' c'' : Circuit} {pair other : NodeId × NodeId} {pairs : List (NodeId × NodeId)}

/-- The first node is a wire that nothing drives, and the second is there and as wide. -/
def drivable (c : Circuit) (pair : NodeId × NodeId) : Bool :=
  match c.nodes[pair.1]?, c.nodes[pair.2]? with
  | some ⟨w, .wire _ none⟩, some source => source.width == w
  | _, _ => false

theorem drivable_iff : c.drivable pair = true ↔
    ∃ w name, c.nodes[pair.1]? = some ⟨w, .wire name none⟩ ∧ c.width pair.2 = .ok w := by
  simp only [width_eq_ok_iff]
  unfold drivable
  constructor
  · intro h
    split at h
    · rename_i w name source htarget hsource
      exact ⟨w, name, htarget, source, hsource, by simpa using h⟩
    · cases h
  · rintro ⟨w, name, htarget, source, hsource, rfl⟩
    rw [htarget, hsource]
    exact beq_self_eq_true _

/-- These wires, which nothing drove, have got their drivers, and all else is as it was. -/
structure Connects (c : Circuit) (pairs : List (NodeId × NodeId)) (c' : Circuit) : Prop where
  driven : ∀ pair ∈ pairs, ∃ w name, c.nodes[pair.1]? = some ⟨w, .wire name none⟩ ∧
    c'.nodes[pair.1]? = some ⟨w, .wire name (some pair.2)⟩
  others : ∀ id, id ∉ pairs.map Prod.fst → c'.nodes[id]? = c.nodes[id]?

theorem Connects.refl (c : Circuit) : c.Connects [] c := ⟨nofun, fun _ _ => rfl⟩

/-- Nothing was connected if and only if the circuit is the same. -/
theorem Connects.eq_iff (h : c.Connects pairs c') : c' = c ↔ pairs = [] := by
  constructor
  · rintro rfl
    refine List.eq_nil_iff_forall_not_mem.mpr fun pair hpair => ?_
    obtain ⟨w, name, hbefore, hafter⟩ := h.driven pair hpair
    rw [hbefore] at hafter
    cases hafter
  · rintro rfl
    obtain ⟨nodes⟩ := c
    obtain ⟨nodes'⟩ := c'
    exact congrArg Circuit.mk (Array.ext_getElem? fun id => h.others id (by simp))

/-- One wire after the other. -/
theorem Connects.cons (h : c.Connects [pair] c') (hrest : c'.Connects pairs c'')
    (hapart : pair.1 ∉ pairs.map Prod.fst) : c.Connects (pair :: pairs) c'' where
  driven := by
    intro other hother
    rcases List.mem_cons.mp hother with rfl | hmem
    · obtain ⟨w, name, hbefore, hafter⟩ := h.driven other List.mem_cons_self
      exact ⟨w, name, hbefore, (hrest.others _ hapart).trans hafter⟩
    · obtain ⟨w, name, hbefore, hafter⟩ := hrest.driven other hmem
      have hne : other.1 ∉ [pair].map Prod.fst := fun hsame =>
        hapart (List.mem_singleton.mp hsame ▸ List.mem_map.mpr ⟨other, hmem, rfl⟩)
      exact ⟨w, name, (h.others _ hne).symm.trans hbefore, hafter⟩
  others := by
    intro id hid
    rw [List.map_cons, List.mem_cons, not_or] at hid
    exact (hrest.others id hid.2).trans (h.others id (by simpa using hid.1))

/-- Whether a wire can be driven does not depend on the drivers of others. -/
theorem Connects.drivable_eq (h : c.Connects [pair] c') (hne : other.1 ≠ pair.1) :
    c'.drivable other = c.drivable other := by
  obtain ⟨w, name, hbefore, hafter⟩ := h.driven pair List.mem_cons_self
  have hothers : ∀ id, id ≠ pair.1 → c'.nodes[id]? = c.nodes[id]? :=
    fun id hid => h.others id (by simpa using hid)
  have hwidth : ∀ id, c'.width id = c.width id := by
    intro id
    by_cases hid : id = pair.1
    · subst hid
      rw [width_eq_ok_iff.mpr ⟨_, hbefore, rfl⟩, width_eq_ok_iff.mpr ⟨_, hafter, rfl⟩]
    · unfold width node
      rw [hothers id hid]
  rw [Bool.eq_iff_iff, drivable_iff, drivable_iff, hothers _ hne, hwidth]

end Circuit

/-! ### Many wires -/

namespace Build

variable {c : Circuit} {pair : NodeId × NodeId} {pairs : List (NodeId × NodeId)}

/-- A wire is driven, or refused with everything as it was. -/
theorem run_drive (pair : NodeId × NodeId) (c : Circuit) :
    c.drivable pair = true ∧ (∃ c', (drive pair.1 pair.2).run.run c = (.ok (), c') ∧
      c.Connects [pair] c') ∨
    c.drivable pair = false ∧ ∃ fault, (drive pair.1 pair.2).run.run c = (.error fault, c) := by
  rcases drive_cases pair.1 pair.2 c with ⟨fault, hrun⟩ | ⟨w, name, htarget, hsource, hrun⟩
  · refine .inr ⟨Bool.eq_false_iff.mpr fun hdrivable => ?_, fault, hrun⟩
    obtain ⟨w, name, htarget, hsource⟩ := Circuit.drivable_iff.mp hdrivable
    exact nomatch hrun.symm.trans (drive_yields htarget hsource)
  · obtain ⟨hlt, -⟩ := Array.getElem?_eq_some_iff.mp htarget
    refine .inl ⟨Circuit.drivable_iff.mpr ⟨w, name, htarget, hsource⟩, _, hrun, ?_, ?_⟩
    · intro other hother
      obtain rfl := List.mem_singleton.mp hother
      exact ⟨w, name, htarget, by simp [hlt]⟩
    · intro id hid
      exact Array.getElem?_setIfInBounds_ne (by simpa [eq_comm] using hid)

/-- Wires are driven in turn up to the first that cannot be, and no two of them are one. -/
theorem run_drives {origin : Circuit} (hdistinct : (pairs.map Prod.fst).Nodup)
    (horigin : ∀ pair ∈ pairs, c.drivable pair = origin.drivable pair) :
    ∃ answer c', (pairs.forM fun pair => drive pair.1 pair.2).run.run c = (answer, c') ∧
      (answer = .ok () ↔ pairs.takeWhile origin.drivable = pairs) ∧
      c.Connects (pairs.takeWhile origin.drivable) c' := by
  induction pairs generalizing c with
  | nil => exact ⟨.ok (), c, rfl, by simp, .refl c⟩
  | cons pair rest ih =>
      obtain ⟨hfirst, hrest⟩ := List.forall_mem_cons.mp horigin
      rw [List.map_cons, List.nodup_cons] at hdistinct
      have hcons : ((pair :: rest).forM fun pair => drive pair.1 pair.2) =
          drive pair.1 pair.2 >>= fun _ => rest.forM fun pair => drive pair.1 pair.2 := rfl
      rw [hcons, run_bind]
      rcases run_drive pair c with ⟨hdrivable, c₁, hrun, hconnects⟩ | ⟨hstuck, fault, hrun⟩
      · have horigin₁ : ∀ other ∈ rest, c₁.drivable other = origin.drivable other := by
          intro other hother
          have hne : other.1 ≠ pair.1 :=
            fun hsame => hdistinct.1 (hsame ▸ List.mem_map.mpr ⟨other, hother, rfl⟩)
          rw [hconnects.drivable_eq hne, hrest other hother]
        obtain ⟨answer, c', hrun', hanswer, hconnects'⟩ := ih hdistinct.2 horigin₁
        rw [List.takeWhile_cons_of_pos (hfirst ▸ hdrivable)]
        refine ⟨answer, c', by rw [hrun]; exact hrun', by simpa using hanswer, ?_⟩
        refine hconnects.cons hconnects' fun hmem => hdistinct.1 ?_
        exact ((List.takeWhile_sublist _).map _).subset hmem
      · rw [List.takeWhile_cons_of_neg (by simp [← hfirst, hstuck])]
        exact ⟨.error fault, c, by rw [hrun], by simp, .refl c⟩

end Build

/-! ### Results -/

/-- The nodes of a bundle, each with the node that another one has in its place. -/
def Bundle.against (target source : Bundle) : List (NodeId × NodeId) :=
  target.nodes.zip source.nodes

namespace Build

variable {c : Circuit} {target source : Bundle}

/-- A bundle with other fields is refused at once. -/
theorem run_driveAll_misfit (h : source.fields ≠ target.fields) :
    (driveAll target source).run.run c =
      (.error (.shapeMismatch target.fields source.fields), c) := by
  unfold driveAll Bundle.expectFields
  rw [if_neg h]
  rfl

/-- A bundle with the same fields is connected up to the first node that does not fit. -/
theorem run_driveAll (hfields : source.fields = target.fields) (hdistinct : target.nodes.Nodup) :
    ∃ answer c', (driveAll target source).run.run c = (answer, c') ∧
      (answer = .ok () ↔ (target.against source).takeWhile c.drivable = target.against source) ∧
      c.Connects ((target.against source).takeWhile c.drivable) c' := by
  have hlength : target.nodes.length = source.nodes.length := by
    rw [Bundle.length_nodes, Bundle.length_nodes, hfields]
  have hwires : (target.against source).map Prod.fst = target.nodes :=
    List.map_fst_zip (Nat.le_of_eq hlength)
  unfold driveAll
  rw [Bundle.expectFields_eq_ok hfields]
  exact run_drives (hwires.symm ▸ hdistinct) fun _ _ => rfl

end Build

namespace Declare

variable {d : Declarations} {id : ActionId} {action : Action} {interface : Interface}

theorem run_defineOutput (haction : d.plan.roster.actions[id]? = some action)
    (hinterface : action.interface? = some interface) (value : Bundle) :
    (defineOutput id value).run.run d =
      (logic (Build.driveAll interface.dataOut value)).run.run d := by
  have hplan : plan.run.run d = (.ok d.plan, d) := rfl
  have hlook : d.plan.roster.action id = .ok action := by simp [Roster.action, haction]
  have hanswer : (ofExcept (.ok action : Except Fault Action) : Declare Action).run.run d =
      (.ok action, d) := rfl
  rw [defineOutput, run_bind, hplan]
  dsimp only
  rw [hlook, run_bind, hanswer]
  dsimp only
  rw [hinterface]

/-- **Results are connected up to the first that does not fit.**  A value with other fields is
refused and changes nothing.  Otherwise the wires before the first field that cannot be connected
have got their drivers and nothing else has changed; the answer is a fault unless these are all
wires; and a refused value has left something behind unless there are none. -/
theorem results_connected_up_to_misfit (hd : d.Declared)
    (haction : d.plan.roster.actions[id]? = some action)
    (hinterface : action.interface? = some interface) (value : Bundle) :
    ∃ answer c', (defineOutput id value).run.run d = (answer, { d with circuit := c' }) ∧
      (value.fields ≠ interface.dataOut.fields → answer ≠ .ok () ∧ c' = d.circuit) ∧
      (value.fields = interface.dataOut.fields →
        (answer = .ok () ↔ (interface.dataOut.against value).takeWhile d.circuit.drivable =
          interface.dataOut.against value) ∧
        d.circuit.Connects
          ((interface.dataOut.against value).takeWhile d.circuit.drivable) c' ∧
        (c' = d.circuit ↔
          (interface.dataOut.against value).takeWhile d.circuit.drivable = [])) := by
  rw [run_defineOutput haction hinterface, run_logic]
  by_cases hfields : value.fields = interface.dataOut.fields
  · have hdataOut : action.dataOut = interface.dataOut := by
      unfold Action.dataOut
      rw [hinterface]
      rfl
    have hdistinct : interface.dataOut.nodes.Nodup := by
      have hwires := (hd.orderly.actions id action haction).distinct
      rw [← hdataOut]
      exact (List.nodup_append.mp (List.nodup_cons.mp hwires).2).2.1
    obtain ⟨answer, c', hrun, hanswer, hconnects⟩ :=
      Build.run_driveAll (c := d.circuit) hfields hdistinct
    rw [hrun]
    refine ⟨_, c', rfl, fun hmisfit => absurd hfields hmisfit, fun _ => ?_⟩
    refine ⟨?_, hconnects, hconnects.eq_iff⟩
    rw [ofCircuit_eq_ok_iff, hanswer]
  · rw [Build.run_driveAll_misfit hfields]
    exact ⟨_, d.circuit, rfl, fun _ => ⟨nofun, rfl⟩, fun hfit => absurd hfit hfields⟩

/-- A gauge that tells whether there is a level, and which. -/
def gauge : Declare MethodHandle := do
  let go ← logic (Build.input "go" 1)
  let _ ← logic (Build.input "level" 8)
  method
    { name := "gauge"
      ready := go
      output := ⟨[⟨"some", 1⟩, ⟨"level", 8⟩], ⟨by decide, by decide⟩⟩ }

/-- The right value for the gauge. -/
def levelled : Bundle := ⟨[(⟨"some", 1⟩, 0), (⟨"level", 8⟩, 1)]⟩

/-- The bit is taken for the level too. -/
def mislevelled : Bundle := ⟨[(⟨"some", 1⟩, 0), (⟨"level", 8⟩, 0)]⟩

theorem gauge_declares : gauge.Declares := by
  refine bind_declares (logic_declares (Build.input_grows _ _)) fun go => ?_
  refine bind_declares (logic_declares (Build.input_grows _ _)) fun level => ?_
  exact method_declares nofun nofun

theorem gauge_interface : ∃ gauged interface,
    (gauge.run.run .empty).2.plan.roster.actions[0]? = some gauged ∧
      gauged.interface? = some interface ∧
      interface.dataOut = ⟨[(⟨"some", 1⟩, 3), (⟨"level", 8⟩, 4)]⟩ := by
  have hdataOut : ((gauge.run.run .empty).2.plan.roster.actions[0]?.bind
      fun gauged => gauged.interface?.map (·.dataOut)) =
        some ⟨[(⟨"some", 1⟩, 3), (⟨"level", 8⟩, 4)]⟩ := by decide +kernel
  obtain ⟨gauged, hgauged, hdataOut⟩ := Option.bind_eq_some_iff.mp hdataOut
  obtain ⟨interface, hinterface, hdataOut⟩ := Option.map_eq_some_iff.mp hdataOut
  exact ⟨gauged, interface, hgauged, hinterface, hdataOut⟩

/-- A value that is too narrow in its second field is refused, and has connected its first. -/
theorem mislevelled_half_connected : ∃ answer c',
    (defineOutput 0 mislevelled).run.run (gauge.run.run .empty).2 =
        (answer, { (gauge.run.run .empty).2 with circuit := c' }) ∧
      answer ≠ .ok () ∧ (gauge.run.run .empty).2.circuit.Connects [(3, 0)] c' := by
  obtain ⟨gauged, interface, hgauged, hinterface, hdataOut⟩ := gauge_interface
  obtain ⟨answer, c', hrun, -, hfit⟩ := results_connected_up_to_misfit gauge_declares.declared
    hgauged hinterface mislevelled
  rw [hdataOut] at hfit
  have hdrivable : (Bundle.against ⟨[(⟨"some", 1⟩, 3), (⟨"level", 8⟩, 4)]⟩ mislevelled).takeWhile
      (gauge.run.run .empty).2.circuit.drivable = [(3, 0)] := by decide +kernel
  rw [hdrivable] at hfit
  obtain ⟨hanswer, hconnects, -⟩ := hfit rfl
  exact ⟨answer, c', hrun, fun hok => absurd (hanswer.mp hok) (by decide), hconnects⟩

/-- So results are not connected all or not at all: the wire of the first field had no driver before
the refused value and has one after it, which stands in the way of the right value. -/
theorem refused_results_connected : ∃ d d' d'' : Declarations, d.Declared ∧
    (defineOutput 0 mislevelled).run.run d =
      (.error (.logic (.widthMismatch "drive" 8 1)), d') ∧
    d.circuit.nodes[3]? = some ⟨1, .wire "gauge.data_out.some" none⟩ ∧
    d'.circuit.nodes[3]? = some ⟨1, .wire "gauge.data_out.some" (some 0)⟩ ∧
    (defineOutput 0 levelled).run.run d' =
      (.error (.logic (.alreadyDriven "gauge.data_out.some")), d'') := by
  refine ⟨(gauge.run.run .empty).2,
    ((defineOutput 0 mislevelled).run.run (gauge.run.run .empty).2).2,
    ((defineOutput 0 levelled).run.run
      ((defineOutput 0 mislevelled).run.run (gauge.run.run .empty).2).2).2,
    gauge_declares.declared, Prod.ext ?_ rfl, ?_, ?_, Prod.ext ?_ rfl⟩
  · decide +kernel
  · decide +kernel
  · decide +kernel
  · decide +kernel

end Declare

end Interlock
