import Muon.Foundation.MachineInteger
import Muon.Foundation.ByteMemory
import Muon.Foundation.Loop
import Muon.Foundation.CheckedArray
import Muon.Foundation.Dyadic
import Muon.Foundation.Assignments
import Muon.Foundation.Transition
import Muon.Foundation.RoundRobin
import Muon.Packet.Libraries
import Muon.Packet.Pbuf
import Muon.Packet.Crypto
import Muon.Packet.Encapsulate
import Muon.Packet.Verdict
import Muon.Packet.Sender
import Muon.Packet.RoundTrip
import Muon.Packet.Receiver
import Muon.Packet.HeaderIntegrity
import Muon.Packet.SenderBounds
import Muon.Packet.StaleBytes
import Muon.Reference.Libraries
import Muon.Conf
import Muon.Conf.CString
import Muon.Conf.ReadConf
import Muon.Conf.Lines
import Muon.Conf.Grammar
import Muon.Conf.Branches
import Muon.Conf.Frame
import Muon.Conf.Configuration
import Muon.Conf.ParseArgs
import Muon.Conf.Complete
import Muon.Conf.Comments
import Muon.Conf.Buffer
import Muon.Conf.ArrayBounds
import Muon.Totp
import Muon.Totp.WordSize
import Muon.Totp.Reduction
import Muon.Utils.Shell
import Muon.Utils.Route
import Muon.Utils.Splitting
import Muon.Utils.Firewall
import Muon.Utils.Commands
import Muon.Utils.Privileges
import Muon.Vpn.Context
import Muon.Vpn.Routes
import Muon.Vpn.TokenPool
import Muon.Vpn.Process
import Muon.Vpn.StepCases
import Muon.Vpn.PathSelection
import Muon.Vpn.TokenWindow
import Muon.Vpn.ClockSkew
import Muon.Vpn.Sockets
import Muon.Vpn.Startup
import Muon.Vpn.PortRange
import Muon.Vpn.Endpoints
import Muon.Vpn.OpenSockets
import Muon.Vpn.BindFailure
import Muon.Vpn.SenderAssertion
import Muon.Vpn.FairShare
import Muon.Vpn.ServerHistory
import Muon.Vpn.Network
import Muon.Vpn.NetworkInvariant
import Muon.Vpn.Agreement
import Muon.Foundation.Simulation
import Muon.Foundation.Possibility
import Muon.Foundation.Tally
import Muon.Foundation.Credentials
import Muon.Vpn.Peers
import Muon.Vpn.Traffic
import Muon.Vpn.Tunnel
import Muon.Vpn.Keepalive
import Muon.Vpn.PathIsolation
import Muon.Vpn.Snmp
import Muon.Vpn.Configured
import Muon.Vpn.TimedNetwork
import Muon.Vpn.Injection
import Muon.Vpn.Coroutines
import Muon.Vpn.Ends
import Muon.Vpn.Recovery
import Muon.Main
import Muon.Host
import Muon.Host.Tables
