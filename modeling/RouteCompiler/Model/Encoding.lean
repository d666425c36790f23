import RouteCompiler.Datum.Codec
import RouteCompiler.Model.Snapshot
import RouteCompiler.Model.Tag

/-!
# Encoding of the model

How snapshots, tags and their parts are stored.  Empty parts are left out where
the decoder knows their default.
-/

namespace RouteCompiler

/-! ## Snapshots -/

instance : Codec Coordinate where
  encode c := .ofMembers [
    .always "groupId" (encode c.groupId),
    .always "artifactId" (encode c.artifactId),
    .always "version" (encode c.version)]
  decode d := do
    let fields ← d.fields? ["groupId", "artifactId", "version"]
    return {
      groupId := ← fields.required "groupId"
      artifactId := ← fields.required "artifactId"
      version := ← fields.required "version" }

instance : Codec Characteristic where
  encode c := .ofMembers [
    .always "type" (encode c.kind),
    .omitIf c.properties.isEmpty "properties" (encode c.properties)]
  decode d := do
    let fields ← d.fields? ["type", "properties"]
    return {
      kind := ← fields.required "type"
      properties := ← fields.optional "properties" .empty }

instance : Codec Endpoint where
  encode e := .ofMembers [
    .always "name" (encode e.name),
    .always "uri" (encode e.uri),
    .omitIf e.description.isEmpty "description" (encode e.description),
    .omitIf e.characteristics.isEmpty "characteristics" (encode e.characteristics),
    .omitIf e.dependencies.isEmpty "dependencies" (encode e.dependencies),
    .omitIf e.consumerOptions.isEmpty "consumerOptions" (encode e.consumerOptions),
    .omitIf e.producerOptions.isEmpty "producerOptions" (encode e.producerOptions)]
  decode d := do
    let fields ← d.fields? ["name", "uri", "description", "characteristics", "dependencies",
      "consumerOptions", "producerOptions"]
    return {
      name := ← fields.required "name"
      uri := ← fields.required "uri"
      description := ← fields.optional "description" ""
      characteristics := ← fields.optional "characteristics" []
      dependencies := ← fields.optional "dependencies" .empty
      consumerOptions := ← fields.optional "consumerOptions" .empty
      producerOptions := ← fields.optional "producerOptions" .empty }

instance : Codec Resource where
  encode r := .ofMembers [
    .always "name" (encode r.name),
    .omitIf r.dependencies.isEmpty "dependencies" (encode r.dependencies)]
  decode d := do
    let fields ← d.fields? ["name", "dependencies"]
    return {
      name := ← fields.required "name"
      dependencies := ← fields.optional "dependencies" .empty }

instance : Codec Policy where
  encode p := .ofMembers [
    .always "name" (encode p.name),
    .omitIf p.description.isEmpty "description" (encode p.description),
    .omitIf p.resources.isEmpty "resources" (encode p.resources),
    .omitIf p.dependencies.isEmpty "dependencies" (encode p.dependencies)]
  decode d := do
    let fields ← d.fields? ["name", "description", "resources", "dependencies"]
    return {
      name := ← fields.required "name"
      description := ← fields.optional "description" ""
      resources := ← fields.optional "resources" []
      dependencies := ← fields.optional "dependencies" .empty }

instance : Codec Group where
  encode g := .ofMembers [
    .always "name" (encode g.name),
    .omitIf g.description.isEmpty "description" (encode g.description),
    .always "endpoints" (encode g.endpoints)]
  decode d := do
    let fields ← d.fields? ["name", "description", "endpoints"]
    return {
      name := ← fields.required "name"
      description := ← fields.optional "description" ""
      endpoints := ← fields.optional "endpoints" [] }

instance : Codec Snapshot where
  encode s := .ofMembers [
    .always "group" (encode s.group),
    .always "policies" (encode s.policies),
    .always "definitions" (encode s.definitions),
    .omitIf s.resources.isEmpty "resources" (encode s.resources)]
  decode d := do
    let fields ← d.fields? ["group", "policies", "definitions", "resources"]
    return {
      group := ← fields.required "group"
      policies := ← fields.optional "policies" []
      definitions := ← fields.optional "definitions" .empty
      resources := ← fields.optional "resources" .empty }

/-! ## Tags -/

instance : Codec Instant where
  encode t := encode t.toText
  decode d := d.text?.bind Instant.parse?

instance : Codec BuildStatus where
  encode s := encode s.name
  decode d := d.constant?.bind fun name => BuildStatus.all.find? fun s => s.name == name

instance : Codec Severity where
  encode s := encode s.name
  decode d := d.constant?.bind fun name => [Severity.warning, .error].find? fun s => s.name == name

instance : Codec Issue where
  encode i := .ofMembers [
    .always "severity" (encode i.severity),
    .always "message" (encode i.message),
    .omitIf i.policy.isNone "policy" (encode i.policy),
    .omitIf i.endpoint.isNone "endpoint" (encode i.endpoint),
    .omitIf i.resource.isNone "resource" (encode i.resource)]
  decode d := do
    let fields ← d.fields? ["severity", "message", "policy", "endpoint", "resource"]
    return {
      severity := ← fields.required "severity"
      message := ← fields.required "message"
      policy := ← fields.optional "policy" none
      endpoint := ← fields.optional "endpoint" none
      resource := ← fields.optional "resource" none }

instance : Codec TagKey where
  encode k := .ofMembers [
    .always "org" (encode k.org),
    .always "group" (encode k.group),
    .always "tag" (encode k.tag)]
  decode d := do
    let fields ← d.fields? ["org", "group", "tag"]
    return {
      org := ← fields.required "org"
      group := ← fields.required "group"
      tag := ← fields.required "tag" }

instance : Codec Tag where
  encode t := .ofMembers [
    .always "name" (encode t.name),
    .omitIf t.description.isEmpty "description" (encode t.description),
    .omitIf t.createdBy.isEmpty "createdBy" (encode t.createdBy),
    .always "createdAt" (encode t.createdAt),
    .omitIf t.builtAt.isNone "builtAt" (encode t.builtAt),
    .always "status" (encode t.status),
    .omitIf t.issues.isEmpty "issues" (encode t.issues)]
  decode d := do
    let fields ← d.fields? ["name", "description", "createdBy", "createdAt", "builtAt",
      "status", "issues"]
    return {
      name := ← fields.required "name"
      description := ← fields.optional "description" ""
      createdBy := ← fields.optional "createdBy" ""
      createdAt := ← fields.required "createdAt"
      builtAt := ← fields.optional "builtAt" none
      status := ← fields.optional "status" .created
      issues := ← fields.optional "issues" [] }

end RouteCompiler
