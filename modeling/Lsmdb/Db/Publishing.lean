import Lsmdb.Db.Engine

namespace Lsmdb.Db

open Lsmdb.Versions Lsmdb.Effect

/-!
# Publishing a generation

What the file steps around a manifest do: `Store` on its own, the removal of files, and the
set of complete SSTables a manifest names (`Generation`), with the readers opened on it.

* `Off` — two disks that differ at most in the named SSTables.
* `Generation.off` — a generation does not mind changes to files it does not name.
-/

section Device
variable [BloomSize] [Remnant]

/-! ### Disks that differ in some files -/

/-- `t` has the files of `d`, except perhaps the SSTables `names`. -/
structure Off (names : List String) (d t : Disk) : Prop where
  manifest : t.manifest = d.manifest
  wal : t.wal = d.wal
  dropped : t.dropped = d.dropped
  get : ∀ name ∉ names, t.dir.get name = d.dir.get name

section
omit [BloomSize] [Remnant]

theorem Off.refl (names : List String) (d : Disk) : Off names d d :=
  ⟨rfl, rfl, rfl, fun _ _ => rfl⟩

theorem Off.trans {names : List String} {d t u : Disk} (h : Off names d t) (h' : Off names t u) :
    Off names d u :=
  ⟨h'.manifest.trans h.manifest, h'.wal.trans h.wal, h'.dropped.trans h.dropped,
    fun name hn => (h'.get name hn).trans (h.get name hn)⟩

theorem Off.put {names : List String} {name : String} (h : name ∈ names) (d : Disk)
    (c : FileContent) : Off names d (d.put name c) :=
  ⟨rfl, rfl, rfl, fun _ hn => Dir.get_put_ne d.dir c fun he => hn (he ▸ h)⟩

theorem Off.remove {names : List String} {name : String} (h : name ∈ names) (d : Disk) :
    Off names d { d with dir := d.dir.remove name } :=
  ⟨rfl, rfl, rfl, fun _ hn => Dir.get_remove_ne d.dir fun he => hn (he ▸ h)⟩

end

/-- An interrupted write of an SSTable touches no other file. -/
theorem Off.cut_writeTable {name : String} {records : List Record} {d t : Disk}
    (h : Prog.Left disk (.writeTable name records) d t) : Off [name] d t := by
  rcases h with rfl | ⟨n, -, rfl⟩ | rfl
  · exact Off.refl _ _
  · exact Off.put List.mem_cons_self d _
  · exact Off.put List.mem_cons_self d _

/-! ### `Store` -/

/-- `d` with `state` as its manifest. -/
def Disk.published (d : Disk) (state : State) : Disk :=
  { d with manifest := some { state with version := 2 } }

theorem store_run {state : State} (h : { state with version := 2 : State }.validate = none)
    (d : Disk) : (store state).run disk d = (d.published state, none) := by
  simp only [store, h]
  rfl

theorem store_crash {state : State} (h : { state with version := 2 : State }.validate = none)
    {d t : Disk} : (store state).Crash disk d t → t = d ∨ t = d.published state := by
  simp only [store, h]
  rintro (h | h | h | h | h | h | h | h | h)
  all_goals first
    | exact Or.inl h
    | exact Or.inr h
    | exact absurd h id

/-! ### Removing files -/

/-- `d` without the SSTables `names`. -/
def Disk.without (d : Disk) (names : List String) : Disk :=
  { d with dir := names.foldl Dir.remove d.dir }

omit [BloomSize] [Remnant] in
theorem Off.without {names all : List String} (h : ∀ name ∈ names, name ∈ all) (d : Disk) :
    Off all d (d.without names) := by
  induction names generalizing d with
  | nil => exact Off.refl _ _
  | cons name rest ih =>
    have hfirst := Off.remove (h name List.mem_cons_self) d
    exact hfirst.trans (ih (fun n hn => h n (List.mem_cons_of_mem _ hn)) _)

theorem removeAll_run {α : Type} (names : List String) (next : Io α) (d : Disk) :
    (removeAll names next).run disk d = next.run disk (d.without names) := by
  induction names generalizing d with
  | nil => rfl
  | cons name rest ih => exact ih _

theorem removeAll_crash {α : Type} {names : List String} {next : Io α} {d t : Disk}
    (h : (removeAll names next).Crash disk d t) :
    Off names d t ∨ next.Crash disk (d.without names) t := by
  suffices hgen : ∀ (rest : List String) (c : Disk), (∀ name ∈ rest, name ∈ names) →
      Off names d c → (removeAll rest next).Crash disk c t →
      Off names d t ∨ next.Crash disk (c.without rest) t from
    hgen names d (fun _ hn => hn) (Off.refl _ _) h
  intro rest
  induction rest with
  | nil => exact fun c _ _ h => Or.inr h
  | cons name rest ih =>
    intro c hsub hoff h
    rcases h with rfl | h | h
    · exact Or.inl hoff
    · exact absurd h id
    · exact ih _ (fun n hn => hsub n (List.mem_cons_of_mem _ hn))
        (hoff.trans (Off.remove (hsub name List.mem_cons_self) c)) h

/-! ### Generations -/

omit [Remnant] in
/-- `files`, newest first, are complete SSTables with the records beside their names, and
    their numbers go up to `nextSST` at most. -/
structure Generation (dir : Dir) (nextSST : ℕ) (files : List (String × List Record)) :
    Prop where
  held : ∀ f ∈ files, dir.get f.1 = some (.complete (.write f.2))
  sorted : ∀ f ∈ files, Ascending f.2
  layered : Layered (files.map Prod.snd)
  named : ∀ f ∈ files, ∃ n ≤ nextSST, f.1 = sstName n
  nodup : (files.map Prod.fst).Nodup

/-- The names of a generation, oldest first, as a manifest lists them. -/
def namesOf (files : List (String × List Record)) : List String := (files.map Prod.fst).reverse

/-- The readers opened on a generation. -/
def readersOf (files : List (String × List Record)) : List Reader :=
  files.map fun f => { name := f.1, table := .write f.2 }

omit [BloomSize] [Remnant] in
theorem mem_namesOf {files : List (String × List Record)} {name : String} :
    name ∈ namesOf files ↔ ∃ f ∈ files, f.1 = name := by
  simp [namesOf]

section
omit [Remnant]

@[simp] theorem readersOf_nil : readersOf [] = [] := rfl

theorem readersOf_cons (f : String × List Record) (files : List (String × List Record)) :
    readersOf (f :: files) = { name := f.1, table := .write f.2 } :: readersOf files := rfl

@[simp] theorem names_readersOf (files : List (String × List Record)) :
    (readersOf files).map Reader.name = files.map Prod.fst := by
  simp [readersOf]

end

section Generation
omit [Remnant]

variable {dir dir' : Dir} {nextSST n : ℕ} {files : List (String × List Record)}

theorem Generation.not_mem (h : Generation dir nextSST files) (hn : nextSST < n) :
    sstName n ∉ namesOf files := by
  intro hmem
  obtain ⟨f, hf, hname⟩ := mem_namesOf.mp hmem
  obtain ⟨m, hm, he⟩ := h.named f hf
  have := sstName_injective (hname.symm.trans he)
  omega

/-- **Files a generation does not name may change.** -/
theorem Generation.congr (h : Generation dir nextSST files)
    (hget : ∀ name ∈ namesOf files, dir'.get name = dir.get name) :
    Generation dir' nextSST files := by
  refine ⟨fun f hf => ?_, h.sorted, h.layered, h.named, h.nodup⟩
  rw [hget f.1 (mem_namesOf.mpr ⟨f, hf, rfl⟩)]
  exact h.held f hf

theorem Generation.mono (h : Generation dir nextSST files) (hn : nextSST ≤ n) :
    Generation dir n files := by
  refine ⟨h.held, h.sorted, h.layered, fun f hf => ?_, h.nodup⟩
  obtain ⟨m, hm, he⟩ := h.named f hf
  exact ⟨m, hm.trans hn, he⟩

theorem Generation.validate (h : Generation dir nextSST files) {state : State}
    (hnames : state.sstables = namesOf files) :
    { state with version := 2 : State }.validate = none := by
  refine State.validate_none (Or.inl rfl) (fun name hname => ?_) ?_
  · obtain ⟨f, hf, rfl⟩ := mem_namesOf.mp (hnames ▸ hname)
    obtain ⟨n, -, he⟩ := h.named f hf
    exact ⟨n, he⟩
  · show state.sstables.Nodup
    rw [hnames]
    exact List.nodup_reverse.mpr h.nodup

theorem Generation.cons (h : Generation dir nextSST files) (hn : nextSST < n)
    {recs : List Record} (hrecs : Ascending recs)
    (hlay : Layered (recs :: files.map Prod.snd)) :
    Generation (dir.put (sstName n) (.complete (.write recs))) n ((sstName n, recs) :: files) := by
  have hnot : sstName n ∉ namesOf files := h.not_mem hn
  have hrest : Generation (dir.put (sstName n) (.complete (.write recs))) n files :=
    (h.mono hn.le).congr fun name hname => Dir.get_put_ne dir _ fun he => hnot (he ▸ hname)
  refine ⟨?_, ?_, hlay, ?_, ?_⟩
  · rintro f hf
    rcases List.mem_cons.mp hf with rfl | hf
    · exact Dir.get_put_self _ _ _
    · exact hrest.held f hf
  · rintro f hf
    rcases List.mem_cons.mp hf with rfl | hf
    · exact hrecs
    · exact h.sorted f hf
  · rintro f hf
    rcases List.mem_cons.mp hf with rfl | hf
    · exact ⟨n, le_rfl, rfl⟩
    · exact hrest.named f hf
  · rw [List.map_cons, List.nodup_cons]
    refine ⟨fun hmem => hnot ?_, h.nodup⟩
    rw [namesOf, List.mem_reverse]
    exact hmem

theorem Generation.empty (dir : Dir) (nextSST : ℕ) : Generation dir nextSST [] :=
  ⟨by simp, by simp, List.Pairwise.nil, by simp, List.nodup_nil⟩

end Generation

theorem openReaders_run {d : Disk} {files : List (String × List Record)}
    (h : ∀ f ∈ files, d.dir.get f.1 = some (.complete (.write f.2))) :
    (openReaders (files.map Prod.fst)).run disk d = (d, .ok (readersOf files)) := by
  induction files with
  | nil => rfl
  | cons f files ih =>
    have hopen : disk.perform (.openTable f.1) d = (d, some (.write f.2)) := by
      show (d, openFile (d.dir.get f.1)) = _
      rw [h f List.mem_cons_self]
      rfl
    rw [List.map_cons, openReaders, Prog.run_attempt_some disk hopen, Prog.run_bind,
      ih fun g hg => h g (List.mem_cons_of_mem _ hg)]
    rfl

omit [Remnant] in
theorem loadSources_readersOf (files : List (String × List Record)) :
    loadSources (readersOf files) = .ok (files.map Prod.snd) := by
  induction files with
  | nil => rfl
  | cons f files ih =>
    rw [readersOf_cons, loadSources, SSTable.loadAll_write, ih]
    rfl

end Device

end Lsmdb.Db
