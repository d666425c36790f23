import RouteCompiler.CommandLine.Program
import RouteCompiler.Proofs.Build.Driving
import RouteCompiler.Proofs.Generation.Remembering
import RouteCompiler.Proofs.Model.Validity

/-!
# Compiling and generating

One command compiles all policies of a snapshot: it makes a tag, queues a build of it,
and a worker generates the policies with one chain of resolvers and hands them to the
deployer.  Another command generates a single policy on its own.  This module shows that
they agree, as long as the files that both read stay as they are.

Main definitions:

- `Undisturbed`: nothing that the commands rely on changes while they run.
- `GenerateRequest.Repeats`: a request to generate one policy of a compilation.

Main results:

- Theorem `buildTag_follows`: a build is a run of the server with a single call.
- Theorem `compile_agrees_with_generate`: a compilation whose build is successful hands
  over, once, what is generated for each policy on its own.
-/

namespace RouteCompiler

variable {W : Type} {o : Observer W}

/-! ## Commands that may fail -/

namespace Observer

open CommandLine

variable {α β : Type} {x : ExceptT Diagnosis (StateM W) α} {f : α → ExceptT Diagnosis (StateM W) β}
  {a : α} {r : Except Diagnosis β}

/-- Where a command always gives the same, so does what goes on from that. -/
theorem yields_bind (hx : o.Yields x.run (.ok a)) (hf : o.Yields (f a).run r) :
    o.Yields (x >>= f).run r := by
  rw [ExceptT.run_bind]
  exact Yields.bind hx hf

theorem yields_lift {x : StateM W α} (hx : o.Yields x a) :
    o.Yields (liftM x : ExceptT Diagnosis (StateM W) α).run (.ok a) :=
  fun w hw => ⟨congrArg Except.ok (hx w hw).1, (hx w hw).2⟩

theorem keeps_lift {x : StateM W α} (hx : o.Keeps x) :
    o.Keeps (liftM x : ExceptT Diagnosis (StateM W) α).run :=
  fun w hw => hx w hw

theorem yields_orDiagnose {ε : Type} (diagnose : ε → Diagnosis) (r : Except ε α) :
    o.Yields (orDiagnose (m := StateM W) diagnose r).run (r.mapError diagnose) :=
  .pure _

theorem exists_run_eq {w : W} (h : (x.run.run w).1 = .ok a) :
    ∃ w', x.run.run w = (.ok a, w') :=
  ⟨_, Prod.ext h rfl⟩

theorem of_lift_run {x : StateM W α} {w w' : W}
    (h : (liftM x : ExceptT Diagnosis (StateM W) α).run.run w = (.ok a, w')) :
    x.run w = (a, w') := by
  obtain ⟨hvalue, hworld⟩ := Prod.mk.inj h
  exact Prod.ext (Except.ok.inj hvalue) hworld

theorem of_orDiagnose_run {ε : Type} {diagnose : ε → Diagnosis} {r : Except ε α} {w w' : W}
    (h : (orDiagnose (m := StateM W) diagnose r).run.run w = (.ok a, w')) :
    r = .ok a ∧ w = w' := by
  obtain ⟨hvalue, hworld⟩ := Prod.mk.inj h
  exact ⟨Outcome.of_mapError_eq_ok hvalue, hworld⟩

/-- A command that ends well has gone on well from what came first. -/
theorem of_bind_run {w w' : W} {b : β} (h : (x >>= f).run.run w = (.ok b, w')) :
    ∃ a w₁, x.run.run w = (.ok a, w₁) ∧ (f a).run.run w₁ = (.ok b, w') := by
  rw [ExceptT.run_bind, StateT.run_bind] at h
  cases hx : x.run.run w with
  | mk first w₁ =>
      rw [hx] at h
      cases first with
      | ok a => exact ⟨a, w₁, rfl, h⟩
      | error e => cases h

/-- Looking at the world comes first without being seen. -/
theorem of_bind_run_of_keeps {w w' : W} {b : β} (hx : o.Keeps x.run) (hw : o.calm w)
    (h : (x >>= f).run.run w = (.ok b, w')) :
    ∃ a w₁, (x.run.run w).1 = .ok a ∧ o.calm w₁ ∧ o.handed w₁ = o.handed w ∧
      (f a).run.run w₁ = (.ok b, w') := by
  obtain ⟨a, w₁, hfirst, hrest⟩ := of_bind_run h
  obtain ⟨hcalm, hhanded⟩ := hx w hw
  rw [hfirst] at hcalm hhanded
  exact ⟨a, w₁, by rw [hfirst], hcalm, hhanded, hrest⟩

end Observer

namespace CommandLine

/-! ## Reading -/

section Reading

variable [Files (StateM W)]

/-- A reader of one path gives what the file at that path gives. -/
theorem yields_readerOf {path : Option String}
    (h : ∀ p, path = some p → ∃ content, o.Yields (Files.readText p) content) :
    ∃ read, o.Yields (readerOf (m := StateM W) path) read := by
  cases path with
  | none => exact ⟨_, .pure _⟩
  | some path =>
      obtain ⟨content, hcontent⟩ := h path rfl
      exact ⟨_, hcontent.bind (.pure _)⟩

/-- The generator of a configuration is made anew each time, but it is the same. -/
theorem yields_makeGenerator {config : GeneratorConfig}
    (h : ∀ path, config.componentDependencies = some path →
      ∃ content, o.Yields (Files.readText path) content) :
    ∃ read : FileReader, o.Yields (makeGenerator (m := StateM W) config).run
      ((Generator.ofConfig read config).mapError fun e =>
        (Diagnosis.ofGeneration e).within "Failed to initialize generator") := by
  obtain ⟨read, hread⟩ := yields_readerOf h
  exact ⟨read, Observer.yields_bind (Observer.yields_lift hread)
    (Observer.yields_orDiagnose _ _)⟩

/-- Looking for packages finds the same directories each time. -/
theorem yields_probeDirectories {probe : Option ProbeConfig} (s : Snapshot)
    (h : ∀ config, probe = some config → ∀ component,
      ∃ answer, o.Yields (Files.isDirectory (config.packageDirectory component)) answer) :
    ∃ directories, o.Yields (probeDirectories (m := StateM W) probe s) directories := by
  cases probe with
  | none => exact ⟨_, .pure _⟩
  | some config =>
      have hpaths : ∀ path ∈ (s.components.filter ProbeConfig.isPlausible).map
          config.packageDirectory, ∃ answer, o.Yields (Files.isDirectory path) answer := by
        intro path hpath
        obtain ⟨component, -, rfl⟩ := List.mem_map.mp hpath
        exact h config rfl component
      obtain ⟨found, hfound⟩ := Observer.yields_filterM hpaths
      exact ⟨_, hfound.bind (.pure _)⟩

/-- A valid snapshot that a file holds is loaded. -/
theorem yields_loadSnapshot {path : String} {content : Except FileFault String} {s : Snapshot}
    (hread : o.Yields (Files.readText path) content)
    (hs : Snapshot.load (fun _ => content) path = .ok s) (hvalid : s.validate = []) :
    o.Yields (loadSnapshot (m := StateM W) path).run (.ok s) := by
  rw [loadSnapshot]
  refine Observer.yields_bind (Observer.yields_lift (hread.bind (.pure _))) ?_
  rw [hs]
  refine Observer.yields_bind (Observer.yields_orDiagnose _ _) ?_
  dsimp only
  rw [hvalid]
  exact .pure _

/-- Every snapshot that is loaded is valid. -/
theorem validate_of_loadSnapshot {path : String} {s : Snapshot} {w : W}
    (h : ((loadSnapshot (m := StateM W) path).run.run w).1 = .ok s) : s.validate = [] := by
  obtain ⟨w', hrun⟩ := Observer.exists_run_eq h
  rw [loadSnapshot] at hrun
  obtain ⟨read, w₁, -, hrun⟩ := Observer.of_bind_run hrun
  obtain ⟨s', w₂, -, hrun⟩ := Observer.of_bind_run hrun
  dsimp only at hrun
  split at hrun
  · next hempty =>
    obtain rfl := Except.ok.inj (Prod.mk.inj hrun).1
    exact List.isEmpty_iff.mp hempty
  · cases hrun

end Reading

/-! ## Builds -/

/-- A build is one call, and its outcome is what the tracker answers during the run. -/
theorem buildTag_follows {site : Surroundings (StateM W)} {compile : Compiler}
    (h : site.Steady o compile) (server : Server Repository) (key : TagKey) :
    o.Follows compile server (buildTag site server key) fun moves result =>
      moves.countP Move.isSubmission = 1 ∧
      ∀ build, result.1 = .ok build → ∃ before later id, moves = before ++ later ∧
        (server.run compile before).tracker.builds.find? id = some build := by
  rw [buildTag]
  refine (h.submit_follows server key).bind fun moves result hresult => ?_
  obtain ⟨answer, server₁⟩ := result
  obtain ⟨hcalls, hrun⟩ := hresult
  dsimp only at hrun ⊢
  subst hrun
  split
  · refine .pure ⟨?_, fun build hbuild => by cases hbuild⟩
    rw [List.append_nil, hcalls]
  · next id hid =>
    refine (h.waitFor_follows id _ _).bind fun waiting result hresult => ?_
    obtain ⟨answer, server₂⟩ := result
    obtain ⟨⟨hnone, hrun⟩, hanswer⟩ := hresult
    dsimp only at hrun hanswer ⊢
    subst hrun
    refine (h.shutDown_follows _).bind fun later server₃ hlater => ?_
    refine .pure ⟨?_, fun build hbuild => ⟨moves ++ waiting, later, id, ?_, ?_⟩⟩
    · simp only [List.countP_append, List.countP_nil, hcalls, hnone, hlater.1]
    · rw [List.append_nil, List.append_assoc]
    · rw [Server.run_append]
      refine Tracker.find_of_answer (hanswer.symm.trans ?_)
      cases answer with
      | none => cases hbuild
      | some outcome => exact congrArg some hbuild

/-! ## Undisturbed commands -/

/-- While commands run, the table of components and the packages that are looked for stay
as they are, and the deployer does nothing but take what it is handed. -/
structure Undisturbed [Files (StateM W)] (o : Observer W) (host : Host (StateM W))
    (deployer : Deployer (StateM W)) (config : GeneratorConfig) : Prop where
  table : ∀ path, config.componentDependencies = some path →
    ∃ content, o.Yields (Files.readText path) content
  packages : ∀ probe, config.probe = some probe → ∀ component,
    ∃ answer, o.Yields (Files.isDirectory (probe.packageDirectory component)) answer
  now : o.Keeps host.now
  freshId : o.Keeps host.freshId
  deploy : ∀ root request policies,
    o.HandsOver (deployer root request policies) ⟨request, policies⟩

/-- A request to generate one policy from what a compilation reads, with packages looked
for if the compilation does so. -/
structure GenerateRequest.Repeats (q : GenerateRequest) (r : CompileRequest)
    (probe : Option ProbeConfig) (p : Policy) : Prop where
  snapshot : q.snapshot = r.snapshot
  config : q.config = r.config
  policy : q.policy = p.name
  probes : q.probes = true ∨ probe = none

section Commands

variable [Files (StateM W)] {host : Host (StateM W)} {deployer : Deployer (StateM W)}
  {g : Generator}

/-- The surroundings of a build leave calm worlds calm, and generate in one way there. -/
theorem Undisturbed.exists_steady {config : GeneratorConfig}
    (h : Undisturbed o host deployer config) (g : Generator) (root : String) :
    ∃ directories : Snapshot → Directories,
      (∀ s, o.Yields (probeDirectories (m := StateM W) config.probe s) (directories s)) ∧
      (surroundings host g config.probe (deployer root)).Steady o
        fun s => g.generateSnapshot (directories s) s := by
  choose directories hdirectories using fun s => yields_probeDirectories s h.packages
  exact ⟨directories, hdirectories, h.now, h.freshId,
    fun s => (hdirectories s).bind (.pure _), h.deploy root⟩

/-- A policy of a valid snapshot is generated by a command as it is by the generator. -/
theorem yields_generatePolicy {config : Configuration} {r : CompileRequest} {q : GenerateRequest}
    {s : Snapshot} {p : Policy} {definition : String} {generated : GeneratedPolicy}
    {directories : Directories}
    (hconfig : o.Yields (loadConfiguration host.home r.config).run (.ok config))
    (hload : o.Yields (loadSnapshot r.snapshot).run (.ok s))
    (hgenerator : o.Yields (makeGenerator config.generator).run (.ok g))
    (hdirectories : o.Yields (probeDirectories config.generator.probe s) directories)
    (hconsistent : s.checkConsistency = .ok ()) (hpolicy : s.policy? p.name = some p)
    (hdefinition : s.definition? p.name = some definition)
    (hgenerate : g.generate directories s p definition = .ok generated)
    (hq : q.Repeats r config.generator.probe p) :
    o.Yields (generatePolicy host q).run (.ok generated) := by
  obtain ⟨hsnapshot, hconfiguration, hname, hprobes⟩ := hq
  have hprobe : (if q.probes then config.generator.probe else none) = config.generator.probe := by
    rcases hprobes with hprobes | hprobes
    · rw [hprobes, if_pos rfl]
    · rw [hprobes, ite_self]
  rw [generatePolicy, hsnapshot, hconfiguration, hname]
  refine Observer.yields_bind hconfig ?_
  refine Observer.yields_bind hload ?_
  have hcheck : o.Yields (orDiagnose (m := StateM W) .ofModel s.checkConsistency).run (.ok ()) := by
    rw [hconsistent]
    exact Observer.yields_orDiagnose _ _
  refine Observer.yields_bind hcheck ?_
  rw [hpolicy]
  dsimp only
  rw [hdefinition]
  simp only [hprobe]
  refine Observer.yields_bind hgenerator ?_
  refine Observer.yields_bind (Observer.yields_lift hdirectories) ?_
  rw [hgenerate]
  exact Observer.yields_orDiagnose _ _

/-- A compilation that ends well has started a server over a store that holds nothing but
its snapshot, and built a tag in it; all that came first leaves calm worlds calm. -/
theorem of_compileWith_run {config : Configuration} {r : CompileRequest} {s : Snapshot}
    {report : CompileReport} {w w' : W} (h : Undisturbed o host deployer config.generator)
    (hconfig : o.Yields (loadConfiguration host.home r.config).run (.ok config))
    (hload : o.Yields (loadSnapshot r.snapshot).run (.ok s)) (hw : o.calm w)
    (hcompile : (compileWith host deployer r).run.run w = (.ok report, w')) :
    ∃ g builder repository server server' root key w₁,
      o.Yields (makeGenerator config.generator).run (.ok g) ∧
      (∀ directories, g.resolvers.Reached directories) ∧
      (∀ key s', repository.stored? key = some s' → s' = s) ∧
      Server.start builder repository = .ok server ∧ o.calm w₁ ∧ o.handed w₁ = o.handed w ∧
      (buildTag (surroundings host g config.generator.probe (deployer root)) server key).run w₁ =
        ((.ok report.build, server'), w') := by
  obtain ⟨read, hgenerator⟩ := yields_makeGenerator h.table
  rw [compileWith] at hcompile
  obtain ⟨_, w₁, hvalue, hw₁, hhanded₁, hcompile⟩ :=
    Observer.of_bind_run_of_keeps hconfig.keeps hw hcompile
  obtain rfl := Except.ok.inj ((hconfig w hw).1.symm.trans hvalue)
  obtain ⟨_, w₂, hvalue, hw₂, hhanded₂, hcompile⟩ :=
    Observer.of_bind_run_of_keeps hload.keeps hw₁ hcompile
  obtain rfl := Except.ok.inj ((hload w₁ hw₁).1.symm.trans hvalue)
  obtain ⟨now, w₃, -, hw₃, hhanded₃, hcompile⟩ :=
    Observer.of_bind_run_of_keeps (Observer.keeps_lift h.now) hw₂ hcompile
  obtain ⟨⟨tag, repository⟩, _, htagged, hcompile⟩ := Observer.of_bind_run hcompile
  obtain ⟨htag, rfl⟩ := Observer.of_orDiagnose_run htagged
  obtain ⟨g, w₄, hg, hw₄, hhanded₄, hcompile⟩ :=
    Observer.of_bind_run_of_keeps hgenerator.keeps hw₃ hcompile
  rw [(hgenerator _ hw₃).1] at hg
  rw [hg] at hgenerator
  obtain ⟨server, _, hstarted, hcompile⟩ := Observer.of_bind_run hcompile
  obtain ⟨hserver, rfl⟩ := Observer.of_orDiagnose_run hstarted
  obtain ⟨⟨outcome, server'⟩, w₅, houtcome, hcompile⟩ := Observer.of_bind_run hcompile
  obtain ⟨build, _, hbuild, hcompile⟩ := Observer.of_bind_run hcompile
  obtain ⟨rfl, rfl⟩ := Observer.of_orDiagnose_run hbuild
  have honly : ∀ key s', repository.stored? key = some s' → s' = s := by
    intro key s' hs'
    obtain ⟨key', hkey'⟩ := Repository.exists_stored_of_createTag htag hs'
    exact Repository.eq_of_stored_putGroup hkey'
  have hhanded : o.handed w₄ = o.handed w := by
    rw [hhanded₄, hhanded₃, hhanded₂, hhanded₁]
  split at hcompile
  · cases hcompile
  · obtain ⟨hreport, rfl⟩ := Prod.mk.inj hcompile
    obtain rfl := Except.ok.inj hreport
    exact ⟨g, _, repository, server, server', _, _, w₄, hgenerator,
      Generator.reached_of_ofConfig (Outcome.of_mapError_eq_ok hg), honly, hserver, hw₄, hhanded,
      Observer.of_lift_run houtcome⟩

/-- Compiling and generating agree: if a compilation ends well and its build is successful,
then it has handed over, once, one result for each policy of the snapshot, and every request
to generate such a policy from the same files gives that result. -/
theorem compile_agrees_with_generate {config : Configuration} {r : CompileRequest} {s : Snapshot}
    {report : CompileReport} {w w' : W} (h : Undisturbed o host deployer config.generator)
    (hconfig : o.Yields (loadConfiguration host.home r.config).run (.ok config))
    (hload : o.Yields (loadSnapshot r.snapshot).run (.ok s)) (hw : o.calm w)
    (hcompile : (compileWith host deployer r).run.run w = (.ok report, w'))
    (hsuccess : report.build.status = .successful) :
    ∃ request policies, request.id = report.build.id ∧
      o.handed w' = o.handed w ++ [⟨request, policies⟩] ∧
      List.Forall₂ (fun p generated => ∀ q : GenerateRequest,
        q.Repeats r config.generator.probe p →
          o.Yields (generatePolicy host q).run (.ok generated)) s.policies policies := by
  obtain ⟨g, builder, repository, server, server', root, key, w₁, hgenerator, hreached, honly,
    hserver, hw₁, hhanded₁, hrun⟩ := of_compileWith_run h hconfig hload hw hcompile
  obtain ⟨directories, hdirectories, hsteady⟩ := h.exists_steady g root
  obtain ⟨moves, -, hhanded, hcalls, houtcome⟩ := buildTag_follows hsteady server key w₁ hw₁
  rw [hrun] at hhanded houtcome
  obtain ⟨before, later, id, rfl, hbuild⟩ := houtcome report.build rfl
  obtain ⟨⟨request, policies⟩, hsingle, hid, s', hstored, hgenerated⟩ :=
    Server.handOvers_eq_singleton hserver hcalls hbuild hsuccess
  obtain rfl := honly _ _ hstored
  refine ⟨request, policies, hid, ?_, ?_⟩
  · rw [hhanded, hhanded₁, hsingle]
  · obtain ⟨hconsistent, hpolicies⟩ :=
      Generator.of_generateSnapshot_eq_ok (hreached _).truthful hgenerated
    have hvalid := Snapshot.isValid_of_validate (validate_of_loadSnapshot (hload w hw).1)
    have hlisted := (List.forall₂_and_left s'.policies policies).mpr ⟨fun _ hp => hp, hpolicies⟩
    refine hlisted.imp fun p generated hp q hq => ?_
    obtain ⟨hmem, definition, hdefinition, hgenerate⟩ := hp
    exact yields_generatePolicy hconfig hload hgenerator (hdirectories s') hconsistent
      (hvalid.policy_eq_some hmem) hdefinition hgenerate hq

end Commands

/-- Files, and a note of what was handed over. -/
abbrev NotedFiles := FileSystem × List HandOver

/-- Work on the files, and leave the note as it is. -/
def onFiles (x : StateM FileSystem α) : StateM NotedFiles α := fun w =>
  let (a, files) := x.run w.1
  (a, (files, w.2))

instance : Files (StateM NotedFiles) where
  readText path := onFiles (Files.readText path)
  writeText path text := onFiles (Files.writeText path text)
  listNames path := onFiles (Files.listNames path)
  pathExists path := onFiles (Files.pathExists path)
  isDirectory path := onFiles (Files.isDirectory path)
  makeDirectories path := onFiles (Files.makeDirectories path)
  removeTree path := onFiles (Files.removeTree path)
  rename path newPath := onFiles (Files.rename path newPath)

/-- The deployer that notes what it is handed. -/
def notingDeployer : Deployer (StateM NotedFiles) := fun _ request policies w =>
  (.done, (w.1, w.2 ++ [⟨request, policies⟩]))

/-- The files stay as they are, and what is handed over is what is noted. -/
def notedOver (files : FileSystem) : Observer NotedFiles where
  calm w := w.1 = files
  handed := Prod.snd

/-- A snapshot with two policies, both of which refer to one endpoint. -/
def sharingText : String :=
  "group:\n  name: g\n  endpoints:\n  - name: q\n    uri: jms:q\n" ++
    "policies:\n- name: p\n- name: r\ndefinitions:\n" ++
    "  p: <a><to uri='logical:q'/></a>\n  r: <b><to uri='logical:q'/></b>\n"

/-- A file with that snapshot. -/
def sharingFiles : FileSystem :=
  FileSystem.empty.put ["s.yaml"] (.file sharingText)

/-- A host whose clock stands still. -/
def stillHost : Host (StateM NotedFiles) where
  now := pure .epoch
  freshId := pure "b"
  home := "/home"

/-- The request to compile that snapshot with one worker. -/
def sharingRequest : CompileRequest where
  snapshot := "/s.yaml"
  org := "o"
  tag := "v1"
  output := none
  config := none
  poolSize := some 1
  format := .text

/-- That snapshot is loaded, compiled and handed over, and the policies that were handed over
are those that are generated for requests of their own. -/
theorem compile_agrees_with_generate_shared :
    ∃ s report w' request policies,
      (notedOver sharingFiles).Yields (loadSnapshot "/s.yaml").run (.ok s) ∧
      s.policies.map Policy.name = ["p", "r"] ∧
      (compileWith stillHost notingDeployer sharingRequest).run.run (sharingFiles, []) =
        (.ok report, w') ∧
      request.id = report.build.id ∧ w'.2 = [⟨request, policies⟩] ∧
      List.Forall₂ (fun p generated => ∀ q : GenerateRequest,
        q.Repeats sharingRequest (some (.default "/home")) p →
          (notedOver sharingFiles).Yields (generatePolicy stillHost q).run (.ok generated))
        s.policies policies := by
  have hfile : sharingFiles.read "/s.yaml" = .ok sharingText :=
    Outcome.of_toOption_eq_some (by decide +kernel)
  have hread : (notedOver sharingFiles).Yields (Files.readText "/s.yaml") (.ok sharingText) :=
    fun w hw => ⟨(congrArg (fun files => files.read "/s.yaml") hw).trans hfile, hw, rfl⟩
  have hparse : ((Snapshot.load (fun _ => .ok sharingText) "/s.yaml").toOption.map fun s =>
      (s.policies.map Policy.name, s.validate.isEmpty)) = some (["p", "r"], true) := by
    decide +kernel
  obtain ⟨s, hs, hproperties⟩ := Option.map_eq_some_iff.mp hparse
  obtain ⟨hnames, hvalid⟩ := Prod.mk.inj hproperties
  have hload : (notedOver sharingFiles).Yields (loadSnapshot sharingRequest.snapshot).run (.ok s) :=
    yields_loadSnapshot hread (Outcome.of_toOption_eq_some hs) (List.isEmpty_iff.mp hvalid)
  have hrun : ((compileWith stillHost notingDeployer sharingRequest).run.run
      (sharingFiles, [])).1.toOption.map (fun report => report.build.status) =
        some .successful := by
    decide +kernel
  obtain ⟨report, hreport, hsuccess⟩ := Option.map_eq_some_iff.mp hrun
  obtain ⟨w', hcompile⟩ := Observer.exists_run_eq (Outcome.of_toOption_eq_some hreport)
  have hundisturbed : Undisturbed (notedOver sharingFiles) stillHost notingDeployer
      (Configuration.default "/home").generator := {
    table := fun path hpath => by cases hpath
    packages := fun probe _ component =>
      ⟨sharingFiles.isDirectory (probe.packageDirectory component), fun w hw =>
        ⟨congrArg (fun files => files.isDirectory (probe.packageDirectory component)) hw, hw, rfl⟩⟩
    now := .pure _
    freshId := .pure _
    deploy := fun root request policies w hw => ⟨hw, rfl⟩ }
  have hcalm : (notedOver sharingFiles).calm (sharingFiles, []) := rfl
  obtain ⟨request, policies, hid, hhanded, hpolicies⟩ :=
    compile_agrees_with_generate hundisturbed (.pure _) hload hcalm hcompile hsuccess
  exact ⟨s, report, w', request, policies, hload, hnames, hcompile, hid, hhanded, hpolicies⟩

end CommandLine

end RouteCompiler
