import Stratify.Proofs.Compile.Reinference
import Stratify.Proofs.Inlining.Uniqueness
import Stratify.Proofs.Target.Discipline
import Stratify.Proofs.Typing.Renaming

/-!
# The choice of fresh names

The separator decides what fresh names look like and which of them are already in use. Nothing else
depends on it: two compilers that differ only in the separator give the same blocks, up to the fresh
names.

Each of the two elaborated programs is the other one renamed. So their levels are compared in both
directions, and every statement goes to the block of its counterpart.
-/

namespace Stratify

namespace Elaborated

variable {prims : Primitives} {p : Program} {l : Limits} {e e' : Elaborated}
  {π π' : String → String} {x : String}

theorem Inlined.notMem_origins (h : Inlined l p e) (hx : x ∈ p.mentions) :
    x ∉ e.origins.map Prod.fst := by
  obtain ⟨s, hout, horigins⟩ := h
  intro hmem
  obtain ⟨o, ho, rfl⟩ := List.mem_map.mp hmem
  rw [← horigins] at ho
  refine ((hout.grows.new o ho).resolve_left List.not_mem_nil) ?_
  rw [Inlining.start, NameSupply.taken_reserveAll]
  exact Or.inl hx

/-- Two elaborations of one program, and the renamings between them. -/
structure Matches (prims : Primitives) (p : Program) (π π' : String → String)
    (e e' : Elaborated) : Prop where
  forth : e.RenamedBy π e'
  back : e'.RenamedBy π' e
  elaborates : Inlining.Elaborates prims p e.stmts e.origins
  elaborates' : Inlining.Elaborates prims p e'.stmts e'.origins

theorem Matches.symm (h : Matches prims p π π' e e') : Matches prims p π' π e' e :=
  ⟨h.back, h.forth, h.elaborates', h.elaborates⟩

theorem RenamedBy.eq_of_mem_origins (h : e.RenamedBy π e') (h' : e'.RenamedBy π' e)
    (hx : x ∈ e.origins.map Prod.fst) : π' (π x) = x := by
  have heq := h'.origins
  rw [h.origins, List.map_map] at heq
  obtain ⟨o, ho, rfl⟩ := List.mem_map.mp hx
  have ho' : o = (π' (π o.1), o.2) :=
    List.map_inj_left.mp ((List.map_id _).trans heq) o ho
  exact (congrArg Prod.fst ho').symm

theorem Matches.eq_of_mem_declNames (h : Matches prims p π π' e e')
    (hx : x ∈ Stmt.declNames e.stmts) : π' (π x) = x := by
  rcases h.elaborates.names x hx with htop | ⟨o, ho, rfl⟩
  · have hnot {origins : List (String × Origin)} {out : List Stmt}
        (h : Inlining.Elaborates prims p out origins) : x ∉ origins.map Prod.fst := by
      intro hmem
      obtain ⟨o, ho, hox⟩ := List.mem_map.mp hmem
      exact h.not_origin x htop o ho hox
    rw [h.forth.other x (hnot h.elaborates), h.back.other x (hnot h.elaborates')]
  · exact h.forth.eq_of_mem_origins h.back (List.mem_map_of_mem ho)

theorem Matches.renamedApart (h : Matches prims p π π' e e') (A : Assignment) :
    e.program.RenamedApart π e'.program (.ofLevels (e.originLevels A))
      (.ofLevels (e'.originLevels A)) := by
  have hflat : Stmt.flatten e.program.stmts = e.stmts := h.elaborates.flat
  have hflat' : Stmt.flatten e'.program.stmts = e'.stmts := h.elaborates'.flat
  refine ⟨rfl, rfl, ⟨?_, Stmt.isFlat_flatten _, fun x hx y hy hxy ↦ ?_, fun s hs x hx ↦ ?_⟩, ?_⟩
  · rw [hflat, hflat']
    exact Stmt.renameAll_eq_ok_iff.mp h.forth.stmts
  · rw [hflat] at hx hy
    rw [← h.eq_of_mem_declNames hx, hxy, h.eq_of_mem_declNames hy]
  · have hscoped := (Stmt.scopedIn_iff.mp h.elaborates.wellScoped.stmts).2
    exact hscoped.mem_of_mem_occurring hs hx
  · rintro ⟨x, c⟩ hx
    obtain ⟨o, ho, rfl, rfl⟩ := mem_ofLevels hx
    refine List.mem_map.mpr ⟨_, List.mem_map.mpr ⟨(π o.1, o.2), ?_, rfl⟩, rfl⟩
    rw [h.forth.origins]
    exact List.mem_map_of_mem ho

theorem exists_matches (h : p.WellScoped prims) (hcomplete : p.complete = true) {l' : Limits}
    (he : ofProgram l p = .ok e) (he' : ofProgram l' p = .ok e') :
    ∃ π π', Matches prims p π π' e e' := by
  obtain ⟨π, hπ⟩ := exists_renamedBy h hcomplete he he'
  obtain ⟨π', hπ'⟩ := exists_renamedBy h hcomplete he' he
  exact ⟨π, π', hπ, hπ', (inlined_of_eq_ok h hcomplete he).elaborates h,
    (inlined_of_eq_ok h hcomplete he').elaborates h⟩

end Elaborated

namespace Typing

variable {π : String → String} {t t' : Typing} {ss ss' : List Stmt}

/-- Two typings show the same of the variables of statements, under their new names in the second
one. -/
structure Renamed (π : String → String) (t t' : Typing) (ss : List Stmt) : Prop where
  level? : ∀ x ∈ Stmt.declNames ss, t'.level? (π x) = t.level? x
  assigned : ∀ x ∈ Stmt.declNames ss, t'.assigned (π x) = t.assigned x

theorem Renamed.blockOf (h : Renamed π t t' ss) (hapart : Stmt.RenamedApart π ss ss') {s s' : Stmt}
    (hs : s ∈ ss) (hrename : Stmt.RenamesTo π s s') : t'.blockOf s' = t.blockOf s := by
  have hhome {x : String} (hx : x ∈ s.occurring) : t'.home (π x) = t.home x := by
    have hdecl := hapart.declared s hs x hx
    have hlevel : t'.levelMap.levelOf? (π x) = t.levelMap.levelOf? x := by
      rw [levelOf?_levelMap, levelOf?_levelMap, h.level? x hdecl]
    have hassigned : t'.levelMap.assigned (π x) = t.levelMap.assigned x := h.assigned x hdecl
    simp only [home, LevelMap.home, LevelMap.home?, hlevel, hassigned]
  cases s with
  | decl type x data init =>
      cases hrename
      exact hhome (List.mem_cons_self ..)
  | assign x e =>
      cases hrename
      exact hhome (List.mem_cons_self ..)
  | sample x dist args =>
      cases hrename
      rfl
  | block list => cases hapart.flat _ hs
  | _ => cases hrename

theorem Renamed.block {l l' : Layout} (h : Renamed π t t' ss)
    (hapart : Stmt.RenamedApart π ss ss') (hl : l = ⟨ss.map fun s ↦ (t.blockOf s, s)⟩)
    (hl' : l' = ⟨ss'.map fun s ↦ (t'.blockOf s, s)⟩) (b : Block) :
    Stmt.renameAll π (l.block b) = .ok (l'.block b) := by
  rw [Stmt.renameAll_eq_ok_iff, Layout.block_eq_filter hl, Layout.block_eq_filter hl']
  -- Only members of `ss` are known to use declared variables, so the pairs carry membership.
  have hpairs := (List.forall₂_and_left ss ss').mpr ⟨fun _ hs ↦ hs, hapart.stmts⟩
  refine (List.rel_filter ?_ hpairs).imp fun s s' hss' ↦ hss'.2
  rintro s s' ⟨hs, hrename⟩
  simp only [h.blockOf hapart hs hrename]

theorem Renamed.shown {prims : Primitives} {p p' : Program} {seeds seeds' : Seeds}
    (h : Renamed π t t' (Stmt.flatten p.stmts)) (hdescribes : t.Describes prims p seeds)
    (hdescribes' : t'.Describes prims p' seeds')
    (hapart : Stmt.RenamedApart π (Stmt.flatten p.stmts) (Stmt.flatten p'.stmts)) :
    t'.shown = t.shown.map fun e ↦ (π e.1, e.2) := by
  rw [hdescribes.shown_eq, hdescribes'.shown_eq, hapart.declNames, List.map_map, List.map_map]
  refine List.map_congr_left fun x hx ↦ ?_
  simp only [Function.comp_apply, h.level? x hx, h.assigned x hx]

end Typing

namespace Elaborated

variable {prims : Primitives} {p : Program} {e e' : Elaborated} {π π' : String → String}
  {t t' : Typing} {A : Assignment} {seeds seeds' : Seeds}

/-- The second inference finds the same for both programs. -/
theorem Matches.typings (h : Matches prims p π π' e e')
    (ht : Typing.infer prims e.program seeds = .ok t)
    (ht' : Typing.infer prims e'.program seeds' = .ok t')
    (hdescribes : t.Describes prims e.program (.ofLevels (e.originLevels A)))
    (hdescribes' : t'.Describes prims e'.program (.ofLevels (e'.originLevels A))) :
    Typing.Renamed π t t' (Stmt.flatten e.program.stmts) := by
  refine ⟨fun x hx ↦ ?_, fun x hx ↦ ?_⟩
  · have hinverse : π' (π x) = x := h.eq_of_mem_declNames (h.elaborates.flat ▸ hx)
    exact hdescribes.level?_renamed hdescribes' (h.renamedApart A) (h.symm.renamedApart A) hx
      hinverse
  · exact hdescribes.assigned_renamed hdescribes' ht ht' (h.renamedApart A) hx

end Elaborated

namespace Output

/-- Two compilations give the same, up to the names of fresh variables. -/
structure RenamedBy (π : String → String) (o o' : Output) : Prop where
  source : o'.source = o.source
  elaborated : o.elaborated.RenamedBy π o'.elaborated
  levels : o'.levels.shown = o.levels.shown.map fun e ↦ (π e.1, e.2)
  blocks : ∀ b, Stmt.renameAll π (o.layout.block b) = .ok (o'.layout.block b)

end Output

namespace Compiler

variable {c c' : Compiler} {program : Program} {o o' : Output}

/-- The settings of two compilers differ in the separator at most. -/
def AgreeButSep (c c' : Compiler) : Prop :=
  c'.settings = { c.settings with sep := c'.settings.sep }

theorem AgreeButSep.symm (h : c.AgreeButSep c') : c'.AgreeButSep c := by
  unfold AgreeButSep
  rw [h]

theorem AgreeButSep.primitives (h : c.AgreeButSep c') :
    c'.settings.primitives = c.settings.primitives := by
  rw [h]
  rfl

theorem AgreeButSep.exists_compile_eq_ok (h : c.AgreeButSep c')
    (hcomplete : program.complete = true) (hnames : program.hoist.NamedByIdentifiers)
    (ho : c.compile program = .ok o) : ∃ o', c'.compile program = .ok o' := by
  obtain ⟨hsource, he, -, -⟩ := compile_eq_ok_iff.mp ho
  have hscoped := (reinfers_of_compile_eq_ok hcomplete hnames ho).wellScoped
  have hhoist := Program.complete_hoist hcomplete
  obtain ⟨e', he'⟩ : ∃ e', Elaborated.ofProgram c'.settings.limits program.hoist = .ok e' := by
    have hchecks := (Elaborated.exists_ofProgram_eq_ok_iff hscoped hhoist).mp ⟨_, he⟩
    rw [Elaborated.exists_ofProgram_eq_ok_iff hscoped hhoist, h]
    exact hchecks
  rw [← h.primitives] at hsource
  obtain ⟨o', ho'⟩ := exists_finishes hcomplete hnames hsource he'
  exact ⟨o', ho'.compile_eq hsource he'⟩

theorem AgreeButSep.renamedBy (h : c.AgreeButSep c') (hcomplete : program.complete = true)
    (hnames : program.hoist.NamedByIdentifiers) (ho : c.compile program = .ok o)
    (ho' : c'.compile program = .ok o') :
    ∃ π, (∀ x ∈ program.hoist.mentions, π x = x) ∧ o.RenamedBy π o' := by
  have hreinfers := reinfers_of_compile_eq_ok hcomplete hnames ho
  have hreinfers' := reinfers_of_compile_eq_ok hcomplete hnames ho'
  obtain ⟨hsource, he, -, -⟩ := compile_eq_ok_iff.mp ho
  obtain ⟨hsource', he', -, -⟩ := compile_eq_ok_iff.mp ho'
  rw [h.primitives] at hreinfers' hsource'
  -- The first inference knows no fresh names, so the second one has the same bounds.
  have hsame : o'.source = o.source := Except.ok.inj (hsource'.symm.trans hsource)
  have hsecond := hreinfers'.second
  rw [hsame] at hsecond
  obtain ⟨π, π', hmatches⟩ := Elaborated.exists_matches hreinfers.wellScoped
    (Program.complete_hoist hcomplete) he he'
  have hapart := hmatches.renamedApart (Draft.levels o.source.levels.level)
  obtain ⟨⟨seeds, hlevels⟩, hlayout⟩ := of_compile_eq_ok ho
  obtain ⟨⟨seeds', hlevels'⟩, hlayout'⟩ := of_compile_eq_ok ho'
  rw [h.primitives] at hlevels'
  have hrenamed := hmatches.typings hlevels hlevels' hreinfers.second hsecond
  refine ⟨π, fun x hx ↦ ?_, hsame, hmatches.forth, ?_, ?_⟩
  · exact hmatches.forth.other x (hreinfers.inlined.notMem_origins hx)
  · exact hrenamed.shown hreinfers.second hsecond hapart.stmts
  · exact hrenamed.block hapart.stmts ((Layout.ofProgram_eq_ok_iff rfl).mp hlayout).2
      ((Layout.ofProgram_eq_ok_iff rfl).mp hlayout').2

/-- The separator only decides what fresh names look like: two compilers that differ in nothing else
both compile a program or both fail. If they compile it, fresh names can be replaced by fresh names,
one by one in the order of creation, so that the inlined program, its levels and the blocks of one
compiler become those of the other. -/
theorem compile_of_agreeButSep (hcomplete : program.complete = true)
    (hnames : program.hoist.NamedByIdentifiers) (h : c.AgreeButSep c') :
    ((∃ o, c.compile program = .ok o) ↔ ∃ o', c'.compile program = .ok o') ∧
      ∀ o o', c.compile program = .ok o → c'.compile program = .ok o' →
        ∃ π, (∀ x ∈ program.hoist.mentions, π x = x) ∧ o.RenamedBy π o' := by
  refine ⟨⟨?_, ?_⟩, fun o o' ho ho' ↦ h.renamedBy hcomplete hnames ho ho'⟩
  · rintro ⟨o, ho⟩
    exact h.exists_compile_eq_ok hcomplete hnames ho
  · rintro ⟨o', ho'⟩
    exact h.symm.exists_compile_eq_ok hcomplete hnames ho'

/-- Fresh names are written with two underscores. -/
def underscored : Compiler :=
  ⟨{ Settings.default with sep := "__" }, by decide⟩

theorem exists_compile_layered : ∃ o, standard.compile Program.layered = .ok o ∧
    o.elaborated.origins.map Prod.fst = ["a_2", "b_3", "a_4", "b_5"] := by
  have hinfer : ((Typing.infer standard.settings.primitives Program.layered []).toOption.any
      fun _ ↦ true) = true := by
    decide +kernel
  have hok : ((Elaborated.ofProgram standard.settings.limits Program.layered).toOption.any
      fun e ↦ decide (e.origins.map Prod.fst = ["a_2", "b_3", "a_4", "b_5"])) = true := by
    cbv
  obtain ⟨source, hsource, -⟩ := exists_ok_of_any hinfer
  obtain ⟨e, he, horigins⟩ := exists_ok_of_any hok
  -- There is nothing to hoist.
  have hhoist : Program.layered.hoist = Program.layered := rfl
  rw [← hhoist] at hsource he
  obtain ⟨o, ho⟩ := exists_finishes (by decide) (by decide) hsource he
  exact ⟨o, ho.compile_eq hsource he, ho.elaborated_eq ▸ of_decide_eq_true horigins⟩

/-- A variable `a_1` of the program is in the way of the first fresh name with one underscore, but
not with two. -/
theorem compile_of_agreeButSep_layered :
    ∃ o o' π, standard.compile Program.layered = .ok o ∧
      underscored.compile Program.layered = .ok o' ∧ π "a_1" = "a_1" ∧ o.RenamedBy π o' ∧
      ["a_2", "b_3", "a_4", "b_5"].map π = ["a__1", "b__2", "a__3", "b__4"] := by
  have hcomplete : Program.layered.complete = true := by decide
  have hagree : standard.AgreeButSep underscored := rfl
  obtain ⟨hiff, hall⟩ := compile_of_agreeButSep hcomplete (by decide) hagree
  obtain ⟨o, ho, hnames⟩ := exists_compile_layered
  obtain ⟨o', ho'⟩ := hiff.mp ⟨o, ho⟩
  obtain ⟨π, hkept, hrenamed⟩ := hall o o' ho ho'
  refine ⟨o, o', π, ho, ho', hkept "a_1" (by decide), hrenamed, ?_⟩
  have hnames' : o'.elaborated.origins.map Prod.fst = ["a__1", "b__2", "a__3", "b__4"] := by
    have hok : ((Elaborated.ofProgram underscored.settings.limits Program.layered).toOption.any
        fun e ↦ decide (e.origins.map Prod.fst = ["a__1", "b__2", "a__3", "b__4"])) = true := by
      cbv
    have he' : Elaborated.ofProgram underscored.settings.limits Program.layered =
        .ok o'.elaborated :=
      (compile_eq_ok_iff.mp ho').2.1
    rw [he'] at hok
    exact of_decide_eq_true hok
  rw [← hnames, ← hnames', hrenamed.elaborated.origins, List.map_map, List.map_map]
  rfl

end Compiler

end Stratify
