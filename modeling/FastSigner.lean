import FastSigner.Lib.Bytes
import FastSigner.Lib.Chunks
import FastSigner.Lib.Frames
import FastSigner.Lib.System
import FastSigner.Lib.Pool
import FastSigner.Lib.Scope
import FastSigner.Lib.Cursor
import FastSigner.Lib.Audit
import FastSigner.Lib.Utf8
import FastSigner.Lib.Table
import FastSigner.Lib.Script
import FastSigner.Lib.Crew
import FastSigner.Lib.Kdf
import FastSigner.Lib.Walk
import FastSigner.Lib.Sha2
import FastSigner.Lib.Sse
import FastSigner.Lib.TreeHash
import FastSigner.Basic
import FastSigner.Zip.Sections
import FastSigner.Zip.Directory
import FastSigner.Zip.Partition
import FastSigner.Zip.Tail
import FastSigner.Sha256
import FastSigner.Sha256.Kdf
import FastSigner.Sha256.ShaNi
import FastSigner.Digest.Content
import FastSigner.Digest.Workers
import FastSigner.Digest.Parallel
import FastSigner.SigBlock
import FastSigner.SigBlock.Grammar
import FastSigner.Align.Extra
import FastSigner.Align.Order
import FastSigner.Align.Inspect
import FastSigner.Align.Header
import FastSigner.Align.Plan
import FastSigner.Align.Assemble
import FastSigner.Align.Copy
import FastSigner.Align.Rewrite
import FastSigner.Align.Layout
import FastSigner.Align.Landing
import FastSigner.Align.Complete
import FastSigner.Keys.Jks
import FastSigner.Keys.Der
import FastSigner.Keys.X509
import FastSigner.Keys.Base64
import FastSigner.Keys.Pem
import FastSigner.Keys.Jks.Recover
import FastSigner.Keys.Jks.Memory
import FastSigner.Keys.Pkcs12
import FastSigner.Keys.Pkcs12.Chain
import FastSigner.Keys.Pkcs12.Kdf
import FastSigner.Keys.Pkcs12.Elements
import FastSigner.Keys.Pkcs12.Recover
import FastSigner.Keys.Pkcs12.Parse
import FastSigner.Keys.Keystore
import FastSigner.Keys.EcKey
import FastSigner.Keys.Signer
import FastSigner.Keys.KeyFiles
import FastSigner.Align.Preserve
import FastSigner.Align.Recheck
import FastSigner.Align.Again
import FastSigner.Sign
import FastSigner.Sign.Files
import FastSigner.Sign.Job
import FastSigner.Sign.Spec
import FastSigner.Sign.Reparse
import FastSigner.Sign.Effects
import FastSigner.Sign.Stages
import FastSigner.Sign.Outcome
import FastSigner.Sign.Footprint
import FastSigner.Sign.Moments
import FastSigner.Sign.Run
import FastSigner.Sign.Agree
import FastSigner.Sign.Entries
import FastSigner.Sign.Resign
import FastSigner.Sign.Written
import FastSigner.Sign.Args
import FastSigner.Sign.Outputs
import FastSigner.Sign.Batch
import FastSigner.Sign.Load
import FastSigner.Sign.Verify
