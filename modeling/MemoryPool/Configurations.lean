import MemoryPool.Client

/-!
# MemoryPool.Configurations

All build configurations behave the same for correct single-threaded clients.

Addresses differ from build to build (the stride does), so slots are compared by name: the number
of the chunk in order of creation, and the index in it. Every build refines one machine over
names, `Numbering.Step`, and that machine is deterministic in what the client asks and in whether
a growth was granted.

* `Client.named`: the client's runs as they look when blocks are given by their names.
* `NamedInv.step`: each build refines the machine over names.
* `builds_agree`: two builds driven alike answer alike, and report nothing.
-/

namespace MemoryPool

/-- The number of the chunk in order of creation, and the index of the slot in it. -/
abbrev SlotName := Nat × Nat

def chunkNames (chunk count : Nat) : List SlotName := (List.range count).map fun i => (chunk, i)

namespace PoolStruct

def byAge (p : PoolStruct) : List (Nat × Nat) :=
  (p.backing, p.blockCount) :: p.overflow.reverse.map fun c => (c.backing, c.blockCount)

def names (p : PoolStruct) : List SlotName := p.byAge.zipIdx.flatMap fun c => chunkNames c.2 c.1.2

def slotAddr (B : Build) (p : PoolStruct) (n : SlotName) : Nat :=
  (p.byAge[n.1]?.getD (0, 0)).1 + n.2 * slotStride B p.blockSize

/-- The name of a slot start; `none` for any other pointer. -/
def nameOf (B : Build) (p : PoolStruct) (block : Nat) : Option SlotName :=
  p.names.find? fun n => p.slotAddr B n = block

end PoolStruct

/-! ## The machine over names -/

/-- The chunk sizes in order of creation, and the free and vended slots by name. -/
structure Numbering where
  counts : List Nat
  free : List SlotName
  held : List SlotName

/-- What can be seen of a call: whether the pool grew, whether the result was null, and the name
of the block that was returned or passed. -/
inductive Visible where
  | alloc (grew null : Bool) (name : Option SlotName)
  | free (name : Option SlotName)
  | write
  deriving DecidableEq

/-- The size of the next chunk: `grow_pool`'s `total * (grow_factor_ - 1)`. -/
def nextCount (B : Build) (growFactor : Nat) (counts : List Nat) : Nat :=
  counts.tail.reverse.foldl B.add (counts.headD 0) * B.sub growFactor 1

namespace Numbering

inductive Step (growFactor : Nat) (next : List Nat → Nat) :
    Numbering → Visible → Numbering → Prop where
  | vend {cs : List Nat} {n : SlotName} {F H : List SlotName} :
      Step growFactor next ⟨cs, n :: F, H⟩ (.alloc false false (some n)) ⟨cs, F, n :: H⟩
  | exhausted {cs : List Nat} {H : List SlotName} :
      Step growFactor next ⟨cs, [], H⟩ (.alloc false true none) ⟨cs, [], H⟩
  | grow {cs : List Nat} {n : SlotName} {F H : List SlotName} : 2 ≤ growFactor →
      chunkNames cs.length (next cs) = n :: F →
      Step growFactor next ⟨cs, [], H⟩ (.alloc true false (some n)) ⟨cs ++ [next cs], F, n :: H⟩
  | accept {cs : List Nat} {n : SlotName} {F H : List SlotName} : n ∈ H →
      Step growFactor next ⟨cs, F, H⟩ (.free (some n)) ⟨cs, n :: F, H.erase n⟩
  | refuse {v : Numbering} : Step growFactor next v (.free none) v
  | write {v : Numbering} : Step growFactor next v .write v

def lts (growFactor : Nat) (next : List Nat → Nat) : Lts Numbering Visible :=
  ⟨Step growFactor next⟩

end Numbering

/-- The same call, and for a pool that may grow the same answer to the growth. -/
def SameCall (growFactor : Nat) : Visible → Visible → Prop
  | .alloc grew _ _, .alloc grew' _ _ => 2 ≤ growFactor → grew = grew'
  | .free name, .free name' => name = name'
  | .write, .write => True
  | _, _ => False

/-- The machine over names is deterministic. -/
theorem Numbering.Step.deterministic {growFactor : Nat} {next : List Nat → Nat}
    {v v₁ v₂ : Numbering} {a b : Visible} (h₁ : Step growFactor next v a v₁)
    (h₂ : Step growFactor next v b v₂) (hc : SameCall growFactor a b) : a = b ∧ v₁ = v₂ := by
  cases h₁ with
  | vend => cases h₂ <;> first | exact ⟨rfl, rfl⟩ | cases hc
  | exhausted =>
    cases h₂ with
    | exhausted => exact ⟨rfl, rfl⟩
    | grow hf _ => cases hc hf
    | _ => cases hc
  | grow hf hn =>
    cases h₂ with
    | exhausted => cases hc hf
    | grow _ hn' =>
      rw [hn] at hn'
      cases hn'
      exact ⟨rfl, rfl⟩
    | _ => cases hc
  | accept _ =>
    cases h₂ with
    | accept _ => cases hc; exact ⟨rfl, rfl⟩
    | _ => cases hc
  | refuse => cases h₂ <;> first | exact ⟨rfl, rfl⟩ | cases hc
  | write => cases h₂ <;> first | exact ⟨rfl, rfl⟩ | cases hc

/-! ## Names and addresses -/

section Names

variable {B : Build} {p : PoolStruct}

theorem mem_chunkNames {k count : Nat} {n : SlotName} :
    n ∈ chunkNames k count ↔ n.1 = k ∧ n.2 < count := by
  obtain ⟨a, b⟩ := n
  simp only [chunkNames, List.mem_map, List.mem_range, Prod.mk.injEq]
  constructor
  · rintro ⟨i, hi, rfl, rfl⟩; exact ⟨rfl, hi⟩
  · rintro ⟨rfl, hb⟩; exact ⟨b, hb, rfl, rfl⟩

theorem mem_names {n : SlotName} :
    n ∈ p.names ↔ ∃ c, p.byAge[n.1]? = some c ∧ n.2 < c.2 := by
  simp only [PoolStruct.names, List.mem_flatMap, mem_chunkNames]
  constructor
  · rintro ⟨⟨c, k⟩, hc, rfl, hn⟩
    exact ⟨c, List.mem_zipIdx_iff_getElem?.mp hc, hn⟩
  · rintro ⟨c, hc, hn⟩
    exact ⟨(c, n.1), List.mem_zipIdx_iff_getElem?.mpr hc, rfl, hn⟩

theorem chunkNames_addr {k : Nat} {c : Nat × Nat} (hc : p.byAge[k]? = some c) :
    (chunkNames k c.2).map (p.slotAddr B) = slotsOf (slotStride B p.blockSize) c.1 c.2 := by
  simp only [chunkNames, slotsOf, List.map_map]
  refine List.map_congr_left fun i _ => ?_
  simp [PoolStruct.slotAddr, hc]

theorem names_addr : (p.names.map (p.slotAddr B)).Perm (p.slots B) := by
  have h1 : p.names.map (p.slotAddr B) =
      p.byAge.flatMap fun c => slotsOf (slotStride B p.blockSize) c.1 c.2 := by
    have hz : p.byAge = p.byAge.zipIdx.map Prod.fst := by simp
    conv_rhs => rw [hz, List.flatMap_map]
    unfold PoolStruct.names
    rw [List.map_flatMap, List.flatMap_def, List.flatMap_def]
    congr 1
    refine List.map_congr_left ?_
    rintro ⟨c, k⟩ hc
    exact chunkNames_addr (List.mem_zipIdx_iff_getElem?.mp hc)
  rw [h1]
  refine List.Perm.flatMap_right _ (List.Perm.cons _ ?_)
  rw [List.map_reverse]
  exact List.reverse_perm _

theorem nameOf_none {block : Nat} (h : block ∉ p.slots B) : p.nameOf B block = none := by
  refine List.find?_eq_none.mpr fun n hn heq => h ?_
  have hm := names_addr.mem_iff.mp (List.mem_map.mpr ⟨n, hn, rfl⟩ :
    p.slotAddr B n ∈ p.names.map (p.slotAddr B))
  rw [of_decide_eq_true heq] at hm
  exact hm

theorem addr_inj (hnd : (p.slots B).Nodup) {n m : SlotName} (hn : n ∈ p.names)
    (hm : m ∈ p.names) (h : p.slotAddr B n = p.slotAddr B m) : n = m :=
  List.inj_on_of_nodup_map (names_addr.nodup_iff.mpr hnd) hn hm h

theorem nameOf_addr (hnd : (p.slots B).Nodup) {n : SlotName} (hn : n ∈ p.names) :
    p.nameOf B (p.slotAddr B n) = some n := by
  have hex : (p.nameOf B (p.slotAddr B n)).isSome := by
    refine List.find?_isSome.mpr ⟨n, hn, by simp⟩
  obtain ⟨m, hm⟩ := Option.isSome_iff_exists.mp hex
  have hmem := List.mem_of_find?_eq_some hm
  have heq : p.slotAddr B m = p.slotAddr B n := by simpa using List.find?_some hm
  rw [hm, addr_inj hnd hmem hn heq]

theorem map_erase_of_injOn {α β : Type*} [BEq α] [LawfulBEq α] [BEq β] [LawfulBEq β]
    {f : α → β} {a : α} :
    ∀ {l : List α}, (∀ b ∈ l, f b = f a → b = a) → (l.map f).erase (f a) = (l.erase a).map f := by
  intro l
  induction l with
  | nil => intro _; rfl
  | cons b l ih =>
    intro h
    by_cases hb : b = a
    · subst hb
      rw [List.map_cons, List.erase_cons_head, List.erase_cons_head]
    · have hne : f b ≠ f a := fun hf => hb (h b (List.mem_cons_self ..) hf)
      rw [List.map_cons, List.erase_cons_tail (by simpa using hne),
        List.erase_cons_tail (by simpa using hb), List.map_cons,
        ih fun c hc => h c (List.mem_cons_of_mem _ hc)]

theorem names_append {p' : PoolStruct} {c : Nat × Nat} (h : p'.byAge = p.byAge ++ [c]) :
    p'.names = p.names ++ chunkNames p.byAge.length c.2 := by
  simp [PoolStruct.names, h, List.zipIdx_append]

theorem slotAddr_append {p' : PoolStruct} {c : Nat × Nat} (h : p'.byAge = p.byAge ++ [c])
    (hb : p'.blockSize = p.blockSize) {n : SlotName} (hn : n ∈ p.names) :
    p'.slotAddr B n = p.slotAddr B n := by
  obtain ⟨d, hd, -⟩ := mem_names.mp hn
  have hlt : n.1 < p.byAge.length := (List.getElem?_eq_some_iff.mp hd).1
  simp [PoolStruct.slotAddr, h, hb, List.getElem?_append_left hlt]

theorem chunkNames_eq_cons (k : Nat) {count : Nat} (h : 0 < count) :
    chunkNames k count = (k, 0) :: (chunkNames k count).drop 1 := by
  obtain ⟨m, rfl⟩ : ∃ m, count = m + 1 := ⟨count - 1, by omega⟩
  simp [chunkNames, List.range_succ_eq_map]

theorem PoolStruct.SameShape.names {p' : PoolStruct} (h : p.SameShape p') :
    p'.names = p.names ∧ p'.slotAddr B = p.slotAddr B := by
  rw [h]
  exact ⟨rfl, rfl⟩

end Names

/-! ## Every build refines the machine over names -/

namespace Client

def visible (B : Build) (c : Client) (e : Event) (c' : Client) : Visible :=
  match e with
  | .alloc _ block grown => .alloc grown.isSome (block = 0) (c'.pool.pool.nameOf B block)
  | .free _ block => .free (c.pool.pool.nameOf B block)
  | .write .. => .write

def named (B : Build) : Lts Client Visible := observed B (Proper B) (visible B)

end Client

/-- The pool is in the state that the names describe. -/
structure NamedInv (B : Build) (others : List (Nat × Region)) (growFactor : Nat)
    (reports : List Report) (c : Client) (v : Numbering) : Prop where
  inv : PoolInv B c.pool others (v.free.map (c.pool.pool.slotAddr B))
    (v.held.map (c.pool.pool.slotAddr B))
  held : c.held = v.held.map (c.pool.pool.slotAddr B)
  names : ∀ n, n ∈ v.free ∨ n ∈ v.held → n ∈ c.pool.pool.names
  counts : v.counts = c.pool.pool.byAge.map Prod.snd
  factor : c.pool.pool.growFactor = growFactor
  reports : c.pool.reports = reports

namespace NamedInv

variable {B : Build} {others : List (Nat × Region)} {growFactor : Nat} {reports : List Report}
  {c c' : Client} {v : Numbering}

theorem same (I : NamedInv B others growFactor reports c v) {s' : State} (F H : List SlotName)
    (hinv : PoolInv B s' others (F.map (c.pool.pool.slotAddr B)) (H.map (c.pool.pool.slotAddr B)))
    (hshape : c.pool.pool.SameShape s'.pool) (hrep : s'.reports = c.pool.reports)
    (hn : ∀ n, n ∈ F ∨ n ∈ H → n ∈ v.free ∨ n ∈ v.held) {held : List Nat}
    (hheld : held = H.map (c.pool.pool.slotAddr B)) :
    NamedInv B others growFactor reports ⟨s', held⟩ ⟨v.counts, F, H⟩ := by
  obtain ⟨h1, h2⟩ := hshape.names (B := B)
  refine ⟨by rw [h2]; exact hinv, by rw [h2]; exact hheld, fun n h => ?_, ?_, ?_,
    hrep.trans I.reports⟩
  · rw [h1]; exact I.names n (hn n h)
  · rw [I.counts]
    show _ = s'.pool.byAge.map Prod.snd
    rw [hshape]
    rfl
  · rw [← I.factor]
    show s'.pool.growFactor = _
    rw [hshape]

theorem nodup (I : NamedInv B others growFactor reports c v) : (c.pool.pool.slots B).Nodup :=
  I.inv.layout.slots_nodup

theorem addr_inj (I : NamedInv B others growFactor reports c v) {n m : SlotName}
    (hn : n ∈ c.pool.pool.names) (hm : m ∈ c.pool.pool.names)
    (h : c.pool.pool.slotAddr B n = c.pool.pool.slotAddr B m) : n = m :=
  MemoryPool.addr_inj I.nodup hn hm h

theorem nextCount_eq (I : NamedInv B others growFactor reports c v) {add : Nat}
    (hg : growthCount B c.pool.pool = some add) : add = nextCount B growFactor v.counts := by
  obtain ⟨-, h2, -, -⟩ := growthCount_some hg
  rw [h2, I.factor, nextCount, I.counts]
  congr 1
  simp [totalCount, PoolStruct.byAge, List.foldl_map, List.map_reverse]

theorem grow {counts : List Nat} {H : List SlotName}
    (I : NamedInv B others growFactor reports c ⟨counts, [], H⟩) {add backing addr : Nat}
    {heap : Heap} (hg : Grown B c.pool add backing addr heap) (tag : Nat) {s' : State}
    (hs' : s' = (linkChunk B c.pool add backing addr heap).vend B backing tag) :
    NamedInv B others growFactor reports ⟨s', backing :: c.held⟩
        ⟨counts ++ [add], (chunkNames counts.length add).drop 1, (counts.length, 0) :: H⟩ ∧
      s'.pool.nameOf B backing = some (counts.length, 0) := by
  have hpos := (growthCount_some hg.count).2.2.1
  have hlen : counts.length = c.pool.pool.byAge.length := by
    have h := congrArg List.length I.counts
    simpa using h
  have hage : s'.pool.byAge = c.pool.pool.byAge ++ [(backing, add)] := by
    rw [hs']
    simp [State.vend, linkChunk, PoolStruct.byAge]
  have hbs : s'.pool.blockSize = c.pool.pool.blockSize := by rw [hs']; rfl
  have hk : s'.pool.byAge[counts.length]? = some (backing, add) := by
    rw [hage, hlen]
    simp
  have hnew := chunkNames_addr (B := B) hk
  simp only [hbs] at hnew
  rw [chunkNames_eq_cons _ hpos, slotsOf_eq_cons _ _ hpos, List.map_cons, List.cons.injEq] at hnew
  have hold : ∀ l : List SlotName, (∀ n ∈ l, n ∈ c.pool.pool.names) →
      l.map (s'.pool.slotAddr B) = l.map (c.pool.pool.slotAddr B) := fun l hl =>
    List.map_congr_left fun n hn => slotAddr_append hage hbs (hl n hn)
  have hH := hold H fun n hn => I.names n (Or.inr hn)
  have hinv : PoolInv B s' others
      ((slotsOf (slotStride B c.pool.pool.blockSize) backing add).drop 1)
      (backing :: H.map (c.pool.pool.slotAddr B)) := by
    rw [hs']
    exact I.inv.grow hg tag
  have hnames := names_append hage
  rw [← hlen, chunkNames_eq_cons _ hpos] at hnames
  have I' : NamedInv B others growFactor reports ⟨s', backing :: c.held⟩
      ⟨counts ++ [add], (chunkNames counts.length add).drop 1, (counts.length, 0) :: H⟩ := by
    refine ⟨?_, ?_, ?_, ?_, ?_, ?_⟩
    · simp only [List.map_cons, hnew.1, hnew.2, hH]
      exact hinv
    · simp only [List.map_cons, hnew.1, hH]
      rw [I.held]
    · intro n hn
      rw [hnames]
      simp only [List.mem_cons] at hn
      rcases hn with hn | rfl | hn
      · exact List.mem_append_right _ (List.mem_cons_of_mem _ hn)
      · exact List.mem_append_right _ (List.mem_cons_self ..)
      · exact List.mem_append_left _ (I.names n (Or.inr hn))
    · simp only [hage, List.map_append, ← I.counts]
      rfl
    · rw [← I.factor]
      simp only [hs']
      rfl
    · rw [← I.reports]
      simp only [hs']
      rfl
  refine ⟨I', ?_⟩
  have h := nameOf_addr I'.nodup (I'.names (counts.length, 0) (Or.inr (List.mem_cons_self ..)))
  simp only [hnew.1] at h
  exact h

theorem step {a : Visible} (I : NamedInv B others growFactor reports c v)
    (h : (Client.named B).step c a c') :
    ∃ v', (Numbering.lts growFactor (nextCount B growFactor)).step v a v' ∧
      NamedInv B others growFactor reports c' v' := by
  obtain ⟨e, hproper, hstep, rfl⟩ := h
  obtain ⟨counts, F, H⟩ := v
  have hheld : c.held = H.map (c.pool.pool.slotAddr B) := I.held
  have hinv := I.inv
  generalize hF : F.map (c.pool.pool.slotAddr B) = free at hinv
  rw [← hheld] at hinv
  have heffect := hstep.effect hinv hproper.tolerated
  cases heffect with
  | @vend env a rest tag =>
    obtain ⟨n, F', rfl, rfl, rfl⟩ : ∃ n F', F = n :: F' ∧ c.pool.pool.slotAddr B n = a ∧
        F'.map (c.pool.pool.slotAddr B) = rest := by
      cases F with
      | nil => cases hF
      | cons n F' => cases hF; exact ⟨n, F', rfl, rfl, rfl⟩
    have hne := hinv.head_eq.2
    have hname := nameOf_addr I.nodup (I.names n (Or.inl (List.mem_cons_self ..)))
    refine ⟨⟨counts, F', n :: H⟩, ?_, ?_⟩
    · have hv : Client.visible B c (.alloc env (c.pool.pool.slotAddr B n) none)
          ⟨c.pool.vend B (c.pool.pool.slotAddr B n) tag,
            c.pool.pool.slotAddr B n :: c.held⟩ = .alloc false false (some n) := by
        simp only [Client.visible, hne]
        exact congrArg _ hname
      rw [hv]
      exact .vend
    · have hinv' := hinv.vend tag
      rw [hheld] at hinv'
      refine I.same F' (n :: H) hinv' rfl rfl ?_ ?_
      · rintro m (hm | hm)
        · exact Or.inl (List.mem_cons_of_mem _ hm)
        · rcases List.mem_cons.mp hm with rfl | hm
          · exact Or.inl (List.mem_cons_self ..)
          · exact Or.inr hm
      · rw [hheld]
        rfl
  | @fail env heap hsame =>
    obtain rfl := List.map_eq_nil_iff.mp hF
    have hnone : (0 : Nat) ∉ c.pool.pool.slots B := fun h => (I.inv.layout.slot_spec h).1 rfl
    refine ⟨⟨counts, [], H⟩, ?_, ?_⟩
    · have hv : Client.visible B c (.alloc env 0 none) ⟨{ c.pool with heap := heap }, c.held⟩ =
          .alloc false true none := congrArg _ (nameOf_none hnone)
      rw [hv]
      exact .exhausted
    · exact I.same [] H (I.inv.sameHeap hsame) rfl rfl (fun n h => h) hheld
  | @grow env add backing addr heap tag hg hgf =>
    obtain rfl := List.map_eq_nil_iff.mp hF
    obtain ⟨I', hname⟩ := I.grow hg tag rfl
    have hadd := I.nextCount_eq hg.count
    have hpos := (growthCount_some hg.count).2.2.1
    refine ⟨_, ?_, I'⟩
    simp only [Client.visible, hname, hg.nonnull, decide_false, Option.isSome_some]
    have hn := chunkNames_eq_cons counts.length hpos
    simp only at hadd
    rw [hadd] at hn ⊢
    exact .grow (by rw [← I.factor]; exact hgf) hn
  | @takeBack _ env block tag hb =>
    rw [hheld] at hb
    obtain ⟨n, hn, rfl⟩ := List.mem_map.mp hb
    have hmem := I.names n (Or.inr hn)
    have herase := map_erase_of_injOn (f := c.pool.pool.slotAddr B) (a := n) (l := H)
      fun m hm heq => I.addr_inj (I.names m (Or.inr hm)) hmem heq
    refine ⟨⟨counts, n :: F, H.erase n⟩, ?_, ?_⟩
    · show Numbering.Step _ _ _ (.free (c.pool.pool.nameOf B (c.pool.pool.slotAddr B n))) _
      rw [nameOf_addr I.nodup hmem]
      exact .accept hn
    · have hinv' := I.inv.takeBack (List.mem_map.mpr ⟨n, hn, rfl⟩) tag
      simp only [herase] at hinv'
      refine I.same (n :: F) (H.erase n) hinv' rfl rfl ?_ ?_
      · rintro m (hm | hm)
        · rcases List.mem_cons.mp hm with rfl | hm
          · exact Or.inr hn
          · exact Or.inl hm
        · exact Or.inr (List.mem_of_mem_erase hm)
      · rw [hheld, herase]
  | @refuse _ env block hfree =>
    rcases hproper.2 with hb | hb
    · exact absurd hb (hinv.disjoint hfree)
    · exact absurd (hinv.free_slot hfree) hb
  | @ignore _ env block hb =>
    refine ⟨⟨counts, F, H⟩, ?_, I⟩
    show Numbering.Step _ _ _ (.free (c.pool.pool.nameOf B block)) _
    rw [nameOf_none hb]
    exact .refuse
  | @write _ addr b byte hb hl hu =>
    rw [hheld] at hb
    exact ⟨⟨counts, F, H⟩, .write,
      I.same F H (I.inv.write hb hl hu) rfl rfl (fun n h => h) hheld⟩

theorem create {w w' : World} {p : PoolStruct} (C : Created B w p w') :
    NamedInv B w.heap.ledger.live p.growFactor w.reports ⟨⟨w', p⟩, []⟩
      ⟨[p.blockCount], chunkNames 0 p.blockCount, []⟩ := by
  have hage : p.byAge = [(p.backing, p.blockCount)] := by
    simp [PoolStruct.byAge, C.overflow]
  have haddr := chunkNames_addr (B := B) (p := p) (k := 0) (c := (p.backing, p.blockCount))
    (by rw [hage]; rfl)
  refine ⟨?_, rfl, ?_, by simp [hage], rfl, C.reports⟩
  · simp only [List.map_nil, haddr]
    exact C.inv
  · intro n hn
    simp only [List.not_mem_nil, or_false] at hn
    simpa [PoolStruct.names, hage] using hn

end NamedInv

theorem nextCount_congr {B₁ B₂ : Build} (h : B₁.ptrBytes = B₂.ptrBytes) (growFactor : Nat) :
    nextCount B₁ growFactor = nextCount B₂ growFactor := by
  have hm : B₁.modulus = B₂.modulus := by unfold Build.modulus; rw [h]
  have hadd : B₁.add = B₂.add := by
    funext a b
    simp only [Build.add, hm]
  funext counts
  simp only [nextCount, Build.sub, hadd, hm]

/-- A build refines the machine over names, over any run from creation on. -/
theorem Client.named_refines {B : Build} {w w' : World} {p : PoolStruct} (C : Created B w p w')
    {vs : List Visible} {c : Client} (hrun : (Client.named B).Run ⟨⟨w', p⟩, []⟩ vs c) :
    ∃ v, (Numbering.lts p.growFactor (nextCount B p.growFactor)).Run
        ⟨[p.blockCount], chunkNames 0 p.blockCount, []⟩ vs v ∧ c.pool.reports = w.reports := by
  obtain ⟨ds, v, hA, hv, I⟩ := hrun.simulate (A := Eq)
    (M := Numbering.lts p.growFactor (nextCount B p.growFactor))
    (R := NamedInv B w.heap.ledger.live p.growFactor w.reports)
    (fun c a c' v hI hstep => by
      obtain ⟨v', h1, h2⟩ := hI.step hstep
      exact ⟨a, v', rfl, h1, h2⟩)
    (NamedInv.create C)
  rw [List.forall₂_eq_eq_eq] at hA
  subst hA
  exact ⟨v, hv, I.reports⟩

/-- Two builds on one target that both created a pool from the same arguments, driven by proper
clients that make the same calls on the same slots (the bytes they write may differ): every result
is the same up to the names of the slots, and no build, hardened or not, reports anything. The
builds' allocators, worlds and spurious failures are independent; only for a pool that may grow
the two must grant or refuse each growth alike. -/
theorem builds_agree {B₁ B₂ : Build} (htarget : B₁.ptrBytes = B₂.ptrBytes) {call : CreateCall}
    (hr₁ : call.InRange B₁) (hr₂ : call.InRange B₂) {env₁ env₂ : Env} {w₁ w₂ w₁' w₂' : World}
    {p₁ p₂ : PoolStruct} (hc₁ : call.run B₁ env₁ w₁ = (some p₁, w₁'))
    (hc₂ : call.run B₂ env₂ w₂ = (some p₂, w₂')) {vs₁ vs₂ : List Visible} {c₁ c₂ : Client}
    (hrun₁ : (Client.named B₁).Run ⟨⟨w₁', p₁⟩, []⟩ vs₁ c₁)
    (hrun₂ : (Client.named B₂).Run ⟨⟨w₂', p₂⟩, []⟩ vs₂ c₂)
    (hcalls : List.Forall₂ (SameCall p₁.growFactor) vs₁ vs₂) :
    vs₁ = vs₂ ∧ c₁.pool.reports = w₁.reports ∧ c₂.pool.reports = w₂.reports := by
  obtain ⟨v₁, h₁, hrep₁⟩ := Client.named_refines (CreateCall.created hr₁ hc₁) hrun₁
  obtain ⟨v₂, h₂, hrep₂⟩ := Client.named_refines (CreateCall.created hr₂ hc₂) hrun₂
  obtain ⟨hn₁, hf₁⟩ := CreateCall.run_fields hc₁
  obtain ⟨hn₂, hf₂⟩ := CreateCall.run_fields hc₂
  rw [hn₁, hf₁, nextCount_congr htarget] at h₁
  rw [hn₂, hf₂] at h₂
  rw [hf₁] at hcalls
  obtain ⟨hB, -⟩ := h₁.lockstep (R := Eq) (B := Eq) (A := SameCall call.growthFactor)
    (fun v a v' t b t' hR hA hs ht => by
      subst hR
      exact hs.deterministic ht hA)
    h₂ hcalls rfl
  rw [List.forall₂_eq_eq_eq] at hB
  exact ⟨hB, hrep₁, hrep₂⟩

theorem builds_agree_x64 :
    ∃ vs c₁ c₂,
      (Client.named (Build.x64 false .none)).Run (firstClient (Build.x64 false .none))
        [.alloc false false (some (0, 0)), .write, .alloc true false (some (1, 0)),
          .free (some (0, 0)), .free none] c₁ ∧
      (Client.named (Build.x64 true .mutex)).Run (firstClient (Build.x64 true .mutex)) vs c₂ ∧
      [.alloc false false (some (0, 0)), .write, .alloc true false (some (1, 0)),
          .free (some (0, 0)), .free none] = vs ∧
      c₁.pool.reports = [] ∧ c₂.pool.reports = [] := by
  have h₁ : (Lts.script (Client.execIf (Build.x64 false .none)
      (Client.Proper (Build.x64 false .none))
      (Client.visible (Build.x64 false .none))) (firstClient (Build.x64 false .none))
      [.alloc firstEnv, .write 0x1008 7, .alloc secondEnv, .free firstEnv 0x1000,
        .free firstEnv 0]).map (fun r => (r.1, ())) =
      some ([.alloc false false (some (0, 0)), .write, .alloc true false (some (1, 0)),
        .free (some (0, 0)), .free none], ()) := by decide +kernel
  obtain ⟨c₁, hrun₁, -⟩ := Lts.script_run Client.execIf_step (fun _ => ()) h₁
  have h₂ : (Lts.script (Client.execIf (Build.x64 true .mutex)
      (Client.Proper (Build.x64 true .mutex))
      (Client.visible (Build.x64 true .mutex))) (firstClient (Build.x64 true .mutex))
      [.alloc firstEnv, .write 0x1000 9, .alloc secondEnv, .free firstEnv 0x1000,
        .free firstEnv 0]).map (fun r => (r.1, ())) =
      some ([.alloc false false (some (0, 0)), .write, .alloc true false (some (1, 0)),
        .free (some (0, 0)), .free none], ()) := by decide +kernel
  obtain ⟨c₂, hrun₂, -⟩ := Lts.script_run Client.execIf_step (fun _ => ()) h₂
  have htarget : (Build.x64 false .none).ptrBytes = (Build.x64 true .mutex).ptrBytes := rfl
  obtain ⟨h1, h2, h3⟩ := builds_agree htarget (by decide) (by decide)
    (firstCall_run false .none (by decide)) (firstCall_run true .mutex (by decide)) hrun₁ hrun₂
    (.cons (fun _ => rfl) (.cons trivial (.cons (fun _ => rfl) (.cons rfl (.cons rfl .nil)))))
  exact ⟨_, c₁, c₂, hrun₁, hrun₂, h1, h2, h3⟩

end MemoryPool
