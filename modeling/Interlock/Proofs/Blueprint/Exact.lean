/-
No integer of a blueprint is truncated.

The circuit keeps only the low bits of a constant, so a constant that is too wide for what it drives
would silently become another.  A signal is therefore checked against its width before the constant
is made, and a limit is compared as a constant only if some word of the field reaches it; a limit
beyond all words of the field accepts every argument.  So every constant of a blueprint that is
assembled carries its value in every cycle, and limits are judged as if no width were bounded.
-/
import Interlock.Proofs.Blueprint.Assembled
import Interlock.Proofs.Blueprint.Designed
import Interlock.Proofs.Inventory
import Interlock.Proofs.System.Runnable

namespace Interlock

theorem Word.count_le_two_pow (w : Nat) : count w ≤ 2 ^ w :=
  Nat.pow_le_pow_right (by decide) (Nat.min_le_left _ _)

theorem Bundle.entry_of_node {bundle : Bundle} {name : String} {node : NodeId}
    (h : bundle.node name = .ok node) : ∃ field, (field, node) ∈ bundle.entries ∧
      field.name = name := by
  unfold Bundle.node at h
  split at h
  · rename_i entry hfind
    cases h
    exact ⟨entry.1, List.mem_of_find?_eq_some hfind, by simpa using List.find?_some hfind⟩
  · cases h

/-- The first field of a name has a node, which is the node of that name. -/
theorem Bundle.node_of_find? {bundle : Bundle} {name : String} {field : Field}
    (h : bundle.fields.find? (·.name == name) = some field) :
    ∃ node, bundle.node name = .ok node ∧ (field, node) ∈ bundle.entries := by
  rw [Bundle.fields, List.find?_map, Option.map_eq_some_iff] at h
  obtain ⟨⟨_, node⟩, hfind, rfl⟩ := h
  refine ⟨node, ?_, List.mem_of_find?_eq_some hfind⟩
  unfold Bundle.node
  rw [show bundle.entries.find? (·.1.name == name) = _ from hfind]

/-- **A limit is judged exactly**, also if no word of the field reaches it. -/
theorem Assembly.judge_ensures (limit : Blueprint.Limit) (width : Nat) (arguments : Bundle) :
    (judge limit width arguments).Ensures fun s verdict => ∀ node,
      arguments.node limit.field = .ok node → s.circuit.width node = .ok width →
        (s.bit verdict = true ↔ s.word node < limit.below) := by
  unfold judge
  split
  · rename_i hbeyond
    refine Build.high_ensures.mono fun s verdict hhigh node _ hwidth => ?_
    have hfits := Word.le_top_iff.mpr (Settled.word_lt hwidth)
    exact iff_of_true hhigh.2 (Nat.lt_of_le_of_lt hfits hbeyond)
  · rename_i hreached
    have hbelow := Word.le_top_iff.mp (Nat.le_of_not_lt hreached)
    refine Build.bind_ensures (Build.ofExcept_ensures _) fun argument => ?_
    refine Build.bind_ensures (Build.width_ensures _) fun w => ?_
    refine Build.bind_ensures (Build.constant_ensures _ _) fun bound => ?_
    refine (Build.binary_ensures _ _ _).mono fun s verdict hverdict hbound hargument hnode => ?_
    obtain ⟨_, -, -, hverdict⟩ := hverdict
    intro node hfound hwidth
    obtain rfl := Except.ok.inj (hnode.symm.trans hfound)
    obtain rfl := Except.ok.inj (hargument.symm.trans hwidth)
    rw [Word.truncate_of_lt hbelow] at hbound
    have hword : s.word verdict = (decide (s.word argument < limit.below)).toNat := by
      rw [Settled.word_eq hverdict, ← hbound]
      exact Word.truncate_of_lt (Bool.toNat_lt _)
    rw [Settled.bit_eq, hword]
    by_cases hlt : s.word argument < limit.below
    · simp [hlt, Word.isHigh]
    · simp [hlt, Word.isHigh]

namespace Blueprint

/-! ### Constants that fit -/

/-- The constant, if it is one, fits the width. -/
def Signal.Fits (width : Nat) : Signal → Prop
  | .constant value => value < 2 ^ width
  | .input _ => True

/-- Every constant fits what it drives. -/
structure Fits (blueprint : Blueprint) : Prop where
  requests : ∀ part ∈ blueprint.transactions, part.request.Fits 1
  readies : ∀ part ∈ blueprint.methods, part.ready.Fits 1
  enables : ∀ part ∈ blueprint.calls, part.enable.Fits 1
  arguments : ∀ part ∈ blueprint.calls, ∀ method ∈ blueprint.methods,
    qualified method.block method.name = part.callee → ∀ field ∈ method.input, ∀ source,
      part.arguments.lookup field.name = some source → source.Fits field.width

theorem Signal.Drives.fits {source : Signal} {c : Circuit} {width : Nat} {node : NodeId}
    (h : source.Drives c width node) : source.Fits width := by
  cases source with
  | constant value => exact Nat.lt_of_lt_of_le h.1 (Word.count_le_two_pow width)
  | input name => trivial

/-! ### Constants that are carried -/

/-- The node carries the value of the constant, or is the input. -/
def Signal.Supplies (system : System) (valuation : Valuation) (node : NodeId) : Signal → Prop
  | .constant value => valuation.word node = value
  | .input name => ∃ w, system.circuit.nodes[node]? = some ⟨w, .input name⟩

/-- The action is the transaction, and its request is exact. -/
structure Transaction.Supplies (part : Transaction) (system : System) (valuation : Valuation)
    (action : Action) : Prop where
  isTransaction : action.isTransaction = true
  name_eq : action.qualifiedName = qualified part.block part.name
  request : part.request.Supplies system valuation action.ready

/-- The action is the method, and its ready bit is exact. -/
structure Method.Supplies (part : Method) (system : System) (valuation : Valuation)
    (action : Action) : Prop where
  isMethod : action.isMethod = true
  name_eq : action.qualifiedName = qualified part.block part.name
  input : action.dataIn.fields = part.input
  ready : part.ready.Supplies system valuation action.ready

/-- The call site is the call, and its enable and all of its arguments are exact. -/
structure Call.Supplies (part : Call) (system : System) (valuation : Valuation)
    (site : CallSite) : Prop where
  callee : ∃ method, system.roster.actions[site.callee]? = some method ∧
    method.qualifiedName = part.callee ∧ site.arguments.fields = method.dataIn.fields
  enable : part.enable.Supplies system valuation site.enable
  arguments : ∀ field node, (field, node) ∈ site.arguments.entries →
    ∃ source, part.arguments.lookup field.name = some source ∧
      source.Supplies system valuation node
  known : ∀ name ∈ part.arguments.map Prod.fst, ∃ field ∈ site.arguments.fields, field.name = name

/-- What a cycle makes of the integers of a blueprint, where verdicts on the calls are given. -/
structure Exact (blueprint : Blueprint) (system : System) (valuation : Valuation)
    (verdict : CallId → NodeId) : Prop where
  transactions : Listed (fun part action => part.Supplies system valuation action)
    blueprint.transactions fun i => system.roster.actions[i]?
  methods : Listed (fun part action => part.Supplies system valuation action)
    blueprint.methods fun i => system.roster.actions[blueprint.transactions.length + i]?
  calls : Listed (fun part site => part.Supplies system valuation site)
    blueprint.calls fun i => system.calls.sites[i]?
  /-- The verdict on a call of a method with a limit is whether the argument is below it. -/
  verdicts : ∀ i part, blueprint.calls[i]? = some part → ∀ method ∈ blueprint.methods,
    qualified method.block method.name = part.callee → ∀ limit, method.limit = some limit →
      ∃ site callee node, system.calls.sites[i]? = some site ∧
        system.roster.actions[site.callee]? = some callee ∧ callee.qualifiedName = part.callee ∧
          callee.validator?.isSome = true ∧ site.arguments.node limit.field = .ok node ∧
            (valuation.bit (verdict i) = true ↔ valuation.word node < limit.below)

theorem Signal.Drives.supplies {source : Signal} {s : Settled} {system : System}
    (hcircuit : s.circuit = system.circuit) {width : Nat} {node : NodeId}
    (h : source.Drives s.circuit width node) : source.Supplies system s.valuation node := by
  cases source with
  | constant value =>
      change s.word node = value
      rw [Settled.word_eq h.2]
      exact Word.truncate_of_lt h.1
  | input name =>
      change ∃ w, system.circuit.nodes[node]? = some ⟨w, .input name⟩
      rw [← hcircuit]
      exact h

end Blueprint

open Blueprint

namespace Declarations.Represents

variable {d : Declarations} {transactions : List Transaction} {methods : List Method}
  {calls : List Call} (h : d.Represents transactions methods calls) (hd : d.Orderly)
include h hd

/-- A call of a method that is listed is a call of the action of that method. -/
theorem exists_callee {i : Nat} {part : Call} (hpart : calls[i]? = some part) {method : Method}
    (hmethod : method ∈ methods) (hname : qualified method.block method.name = part.callee) :
    ∃ site action, d.plan.calls.sites[i]? = some site ∧
      part.Describes d.circuit d.plan.roster site ∧
        d.plan.roster.actions[site.callee]? = some action ∧ method.Describes d.circuit action := by
  obtain ⟨site, hsite, hdescribes⟩ := h.call i part hpart
  obtain ⟨action, haction, hcallee, -⟩ := hdescribes.callee
  obtain ⟨j, hj⟩ := List.mem_iff_getElem?.mp hmethod
  obtain ⟨other, hother, hmethod⟩ := h.method j method hj
  have hsame := hd.named _ _ other action hother haction
    (hmethod.name_eq.trans (hname.trans hcallee.symm))
  refine ⟨site, other, hsite, hdescribes, ?_, hmethod⟩
  rw [← hsame]
  exact hother

/-- Every constant of what is declared fits what it drives. -/
theorem arguments_fit {part : Call} (hpart : part ∈ calls) {method : Method}
    (hmethod : method ∈ methods) (hname : qualified method.block method.name = part.callee)
    {field : Field} (hfield : field ∈ method.input) {source : Signal}
    (hsource : part.arguments.lookup field.name = some source) : source.Fits field.width := by
  obtain ⟨i, hi⟩ := List.mem_iff_getElem?.mp hpart
  obtain ⟨site, action, hsite, hdescribes, haction, hinput⟩ := h.exists_callee hd hi hmethod hname
  obtain ⟨other, hother, -, hfields⟩ := hdescribes.callee
  obtain rfl : action = other := Option.some.inj (haction.symm.trans hother)
  rw [← hinput.input, ← hfields] at hfield
  obtain ⟨⟨_, node⟩, hentry, rfl⟩ := List.mem_map.mp hfield
  obtain ⟨passed, hpassed, hdrives⟩ := hdescribes.arguments _ node hentry
  obtain rfl : passed = source := Option.some.inj (hpassed.symm.trans hsource)
  exact hdrives.fits

end Declarations.Represents

/-- Every constant of a blueprint whose declarations are answered fits what it drives. -/
theorem Blueprint.fits_of_declarations {blueprint : Blueprint} {d : Declarations}
    (h : blueprint.declarations = .ok d) : blueprint.Fits := by
  have hrepresents := represents_of_declarations h
  have horderly := (declarations_designed h).declared.orderly
  refine ⟨fun part hpart => ?_, fun part hpart => ?_, fun part hpart => ?_,
    fun part hpart method hmethod hname field hfield source hsource =>
      hrepresents.arguments_fit horderly hpart hmethod hname hfield hsource⟩
  · obtain ⟨i, hi⟩ := List.mem_iff_getElem?.mp hpart
    obtain ⟨action, -, hdescribes⟩ := hrepresents.transaction i part hi
    exact hdescribes.request.fits
  · obtain ⟨i, hi⟩ := List.mem_iff_getElem?.mp hpart
    obtain ⟨action, -, hdescribes⟩ := hrepresents.method i part hi
    exact hdescribes.ready.fits
  · obtain ⟨i, hi⟩ := List.mem_iff_getElem?.mp hpart
    obtain ⟨site, -, hdescribes⟩ := hrepresents.call i part hi
    exact hdescribes.enable.fits

/-- In every cycle of a system that a design represents the lists of, all integers are exact. -/
theorem Evaluated.exact {blueprint : Blueprint} {d : Declarations} (hd : d.Orderly)
    (hrepresents : d.Represents blueprint.transactions blueprint.methods blueprint.calls)
    {policy : Policy} {system : System} {valuation : Valuation} {reach : Reach} {s : Settled}
    (h : Evaluated d policy system valuation reach s) (hle : d.circuit ≤ system.circuit)
    {verdict : CallId → NodeId} (hasked : system.Asked verdict d) :
    blueprint.Exact system valuation verdict := by
  have hle' : d.circuit ≤ s.circuit := h.circuit_eq ▸ hle
  have hsupplies : ∀ {source : Signal} {width node}, source.Drives d.circuit width node →
      source.Supplies system valuation node := fun hdrives =>
    h.valuation_eq ▸ (hdrives.mono hle').supplies h.circuit_eq
  refine ⟨?_, ?_, ?_, fun i part hpart method hmethod hname limit hlimit => ?_⟩
  · rw [h.roster_eq]
    exact hrepresents.transaction.mono (fun _ _ h => h) fun part action hpart =>
      ⟨hpart.isTransaction, hpart.name_eq, hsupplies hpart.request⟩
  · rw [h.roster_eq]
    exact hrepresents.method.mono (fun _ _ h => h) fun part action hpart =>
      ⟨hpart.isMethod, hpart.name_eq, hpart.input, hsupplies hpart.ready⟩
  · rw [h.calls_eq]
    exact hrepresents.call.mono (fun _ _ h => h) fun part site hpart =>
      { callee := h.roster_eq ▸ hpart.callee
        enable := hsupplies hpart.enable
        arguments := fun field node hentry => (hpart.arguments field node hentry).imp
          fun _ hsource => ⟨hsource.1, hsupplies hsource.2⟩
        known := hpart.known }
  · obtain ⟨site, action, hsite, hdescribes, haction, hinput⟩ :=
      hrepresents.exists_callee hd hpart hmethod hname
    obtain ⟨field, hfind, hvalidator⟩ := hinput.limit limit hlimit
    obtain ⟨other, hother, hcallee, hfields⟩ := hdescribes.callee
    obtain rfl : action = other := Option.some.inj (haction.symm.trans hother)
    rw [← hinput.input, ← hfields] at hfind
    obtain ⟨node, hnode, hentry⟩ := Bundle.node_of_find? hfind
    obtain ⟨c, c', hfrom, hyields, hto⟩ := hasked i site hsite action haction _ hvalidator
    have hwidth := Circuit.width_of_le hle' ((hd.sites i site hsite).arguments field node hentry)
    have hverdict := (Assembly.judge_ensures limit field.width site.arguments).holds hyields s
      (h.origin_eq ▸ hfrom) (h.circuit_eq ▸ hto) node hnode hwidth
    refine ⟨site, action, node, by rw [h.calls_eq, hsite], by rw [h.roster_eq, haction], hcallee,
      by rw [hvalidator]; rfl, hnode, ?_⟩
    rw [← h.valuation_eq]
    exact hverdict

/-- **No integer of a blueprint is truncated.**  If a blueprint is assembled, then every constant
fits what it drives: requests, ready bits and enables, and arguments for fields that the method
that is called takes.  In every cycle of the system each of them carries its value; and wherever a
method with a limit is called, the verdict that decides which candidates could run is whether the
argument is below the limit, however large the limit is. -/
theorem Blueprint.integers_exact {blueprint : Blueprint} {system : System}
    (h : blueprint.assemble = .ok system) :
    blueprint.Fits ∧ ∃ d verdict, blueprint.declarations = .ok d ∧ system.Asked verdict d ∧
      ∀ stimulus valuation, system.evaluate stimulus = .ok valuation →
        blueprint.Exact system valuation verdict ∧
          ∀ c candidate, system.contention.candidates[c]? = some candidate →
            (system.Runnable valuation c ↔ (∀ t ∈ candidate.members, system.Ready valuation t) ∧
              ∀ path ∈ candidate.paths, system.Opens valuation path →
                system.Admits valuation verdict path) := by
  obtain ⟨d, hdeclarations, hfinish⟩ := bind_eq_ok_iff.mp h
  split at hfinish
  swap
  · cases hfinish
  next found hfound =>
    cases hfinish
    have hd := (declarations_designed hdeclarations).declared
    have hgrows := Policy.eager_serves.grows
    obtain ⟨verdict, hasked, hdecides⟩ := exists_evaluated_decides hd hgrows hfound
    refine ⟨fits_of_declarations hdeclarations, d, verdict, hdeclarations, hasked,
      fun stimulus valuation heval => ?_⟩
    obtain ⟨reach, s, hs, hverdict⟩ := hdecides stimulus valuation heval
    exact ⟨hs.exact hd.orderly (represents_of_declarations hdeclarations)
      (circuit_le_of_finish hd hgrows hfound) hasked,
      fun c candidate hcandidate => hs.runnable_iff_admits hverdict hcandidate⟩

/-- A constant argument is accepted if it is below the limit. -/
theorem Blueprint.Exact.verdict_iff {blueprint : Blueprint} {system : System}
    {valuation : Valuation} {verdict : CallId → NodeId}
    (h : blueprint.Exact system valuation verdict) {i : Nat} {part : Call}
    (hpart : blueprint.calls[i]? = some part) {method : Method}
    (hmethod : method ∈ blueprint.methods)
    (hname : qualified method.block method.name = part.callee) {limit : Limit}
    (hlimit : method.limit = some limit) {value : Nat}
    (hvalue : part.arguments.lookup limit.field = some (.constant value)) :
    valuation.bit (verdict i) = true ↔ value < limit.below := by
  obtain ⟨site, callee, node, hsite, -, -, -, hnode, hverdict⟩ :=
    h.verdicts i part hpart method hmethod hname limit hlimit
  obtain ⟨site', hsite', hsupplied⟩ := h.calls i part hpart
  obtain rfl : site = site' := Option.some.inj (hsite.symm.trans hsite')
  obtain ⟨field, hentry, hfield⟩ := Bundle.entry_of_node hnode
  obtain ⟨source, hsource, hsupplies⟩ := hsupplied.arguments field node hentry
  rw [hfield, hvalue] at hsource
  cases hsource
  rw [hverdict, show valuation.word node = value from hsupplies]

/-- Whether the blueprint is assembled, and a cycle of the system passes a check. -/
def Blueprint.passes (blueprint : Blueprint) (stimulus : Stimulus)
    (check : System → Valuation → Bool) : Bool :=
  match blueprint.assemble with
  | .error _ => false
  | .ok system =>
    match system.evaluate stimulus with
    | .error _ => false
    | .ok valuation => check system valuation

theorem Blueprint.exists_of_passes {blueprint : Blueprint} {stimulus : Stimulus}
    {check : System → Valuation → Bool} (h : blueprint.passes stimulus check = true) :
    ∃ system valuation, blueprint.assemble = .ok system ∧
      system.evaluate stimulus = .ok valuation ∧ check system valuation = true := by
  unfold passes at h
  split at h
  · cases h
  · rename_i system hassemble
    split at h
    · cases h
    · rename_i valuation heval
      exact ⟨system, valuation, hassemble, heval, h⟩

/-- Two senders, and two meters with limits: one that a word of eight bits reaches, and the largest
word of sixty-four. -/
def metering : Blueprint where
  inputs := []
  blocks := [⟨"plant", none⟩]
  transactions := [⟨"near", none, .constant 1⟩, ⟨"far", none, .constant 1⟩]
  methods := [
    ⟨"narrow", some "plant", .constant 1, [⟨"level", 8⟩], false, false, none, some ⟨"level", 256⟩⟩,
    ⟨"wide", some "plant", .constant 1, [⟨"level", 64⟩], false, false, none,
      some ⟨"level", 18446744073709551615⟩⟩]
  calls := [⟨"near", "plant.narrow", .constant 1, [("level", .constant 255)]⟩,
    ⟨"far", "plant.wide", .constant 1, [("level", .constant 18446744073709551615)]⟩]
  conflicts := []
  orderings := []
  together := []
  coupled := []

/-- Both levels are the largest words of their fields.  The limit of the narrow meter is beyond all
words, so it takes the level; the limit of the wide one is the level itself. -/
theorem metering_exact : ∃ system verdict valuation, metering.assemble = .ok system ∧
    metering.Fits ∧ system.evaluate .empty = .ok valuation ∧
      metering.Exact system valuation verdict ∧ valuation.bit (verdict 0) = true ∧
        valuation.bit (verdict 1) = false ∧
          system.runs valuation = [true, false, true, false] := by
  have hpasses : metering.passes .empty
      (fun system valuation => system.runs valuation == [true, false, true, false]) = true := by
    decide +kernel
  obtain ⟨system, valuation, hassemble, heval, hruns⟩ := Blueprint.exists_of_passes hpasses
  obtain ⟨hfits, d, verdict, -, -, hcycles⟩ := Blueprint.integers_exact hassemble
  obtain ⟨hexact, -⟩ := hcycles _ valuation heval
  refine ⟨system, verdict, valuation, hassemble, hfits, heval, hexact, ?_, ?_, eq_of_beq hruns⟩
  · exact (hexact.verdict_iff rfl (List.mem_cons_self ..) rfl rfl rfl).mpr (by decide)
  · have hwide : valuation.bit (verdict 1) = true ↔ 18446744073709551615 < 18446744073709551615 :=
      hexact.verdict_iff rfl (List.mem_cons_of_mem _ (List.mem_cons_self ..)) rfl rfl rfl
    rw [Bool.eq_false_iff, Ne, hwide]
    exact Nat.lt_irrefl _

end Interlock
