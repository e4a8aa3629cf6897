import LogDrive.Lib.Bytes
import LogDrive.Lib.Prog
import LogDrive.Lib.Logic
import LogDrive.Lib.Interleave
import LogDrive.Lib.Crowd
import LogDrive.Lib.Faults
import LogDrive.Lib.Java
import LogDrive.Lib.CString
import LogDrive.Lib.Extremes
import LogDrive.Lib.Pool
import LogDrive.Lib.Serial
import LogDrive.Driver.Utils
import LogDrive.Driver.Preservation
import LogDrive.Driver.Session
import LogDrive.Driver.Log
import LogDrive.Driver.SectorArray
import LogDrive.Driver.Address
import LogDrive.Driver.Staging
import LogDrive.Driver.DeviceName
import LogDrive.Driver.Damage
import LogDrive.Driver.Aio
import LogDrive.Driver.DiskNumber
import LogDrive.Driver.DiskConfig
import LogDrive.Driver.DiskSpec
import LogDrive.Driver.Proof.Codec
import LogDrive.Driver.Proof.BioInv
import LogDrive.Driver.Proof.BioCoherent
import LogDrive.Driver.Proof.BioDurable
import LogDrive.Driver.Proof.RoundTrip
import LogDrive.Driver.Proof.Records
import LogDrive.Driver.Proof.FileInv
import LogDrive.Driver.Proof.LogInv
import LogDrive.Driver.Proof.Unlogged
import LogDrive.Driver.Proof.Trim
import LogDrive.Driver.Proof.Write
import LogDrive.Driver.Proof.Read
import LogDrive.Driver.Proof.Finalize
import LogDrive.Driver.Proof.Sessions
import LogDrive.Driver.Proof.Runs
import LogDrive.Driver.Proof.AppendOnly
import LogDrive.Driver.Proof.Refinement
import LogDrive.Driver.Proof.Snapshot
import LogDrive.Driver.Proof.TimeTravel
import LogDrive.Driver.Proof.Crash
import LogDrive.Driver.Proof.Isolation
import LogDrive.Driver.Proof.Past
import LogDrive.Driver.Proof.Crowd
import LogDrive.Driver.Proof.Total
import LogDrive.Driver.Proof.Growth
import LogDrive.Driver.Proof.Reading
import LogDrive.Driver.Proof.FailedFill
import LogDrive.Driver.Proof.ReadErrors
import LogDrive.Driver.Proof.WriteErrors
import LogDrive.Driver.Proof.IoErrors
import LogDrive.Driver.Proof.Address
import LogDrive.Driver.Proof.AddressRange
import LogDrive.Driver.Proof.Staging
import LogDrive.Driver.Proof.DeviceName
import LogDrive.Driver.Proof.DiskConfig
import LogDrive.Driver.Proof.DiskLine
import LogDrive.Driver.Proof.DiskAttach
import LogDrive.Driver.Proof.SafeReads
import LogDrive.Driver.Proof.Damage
import LogDrive.Driver.Proof.Aio
import LogDrive.Driver.Proof.AioOrder
import LogDrive.Reader.Record
import LogDrive.Reader.Proof.Record
import LogDrive.Reader.Database
import LogDrive.Reader.Hash
import LogDrive.Reader.Convert
import LogDrive.Reader.Job
import LogDrive.Reader.Proof.Database
import LogDrive.Reader.Proof.IndexRange
import LogDrive.Reader.Proof.Chains
import LogDrive.Reader.Proof.Convert
import LogDrive.Reader.Proof.Decode
import LogDrive.Reader.Proof.Restore
import LogDrive.Reader.Proof.HashIndex
import LogDrive.Reader.Proof.HashSearch
import LogDrive.Reader.Proof.Pipeline
import LogDrive.Reader.Proof.Sampling
import LogDrive.Reader.Proof.Completeness
